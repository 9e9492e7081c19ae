import ComponentIdentity.CommandLine

/-! # Workspaces

Files, at most one index that stays open between two actions, and the minters of
the random runs to come.
-/

namespace ComponentIdentity

structure Workspace where
  files : Files
  index : Option OpenIndex := none
  minters : Nat → Minter
  runs : Nat := 0

namespace Workspace

def fresh (w : Workspace) : Minter := w.minters w.runs

def close (w : Workspace) : Workspace :=
  match w.index with
  | none => w
  | some index => { w with files := w.files.release index.location, index := none }

def keep (w : Workspace) (index : OpenIndex) (files : Files) : Workspace :=
  { w with files := files.hold index.location, index := some index }

/-- Closes the open index first, also if the database cannot be opened. -/
def openIndex (w : Workspace) (path : Path) : Except Error Unit × Workspace :=
  let w := w.close
  match w.files.openIndex path with
  | .error e => (.error e, w)
  | .ok (index, files) => (.ok (), w.keep index files)

def openExistingIndex (w : Workspace) (path : Path) : Except Error Unit × Workspace :=
  let w := w.close
  match w.files.openExistingIndex path with
  | .error e => (.error e, w)
  | .ok index => (.ok (), w.keep index w.files)

/-- Records a run; a database whose file was removed keeps nothing on disk. -/
def record (w : Workspace) (index : OpenIndex) (cache : RefCache) : Except Error Nat × Workspace :=
  match w.files.record index cache with
  | .error e => (.error e, w)
  | .ok (index, n, files) =>
    (.ok n, { w with
      files := if index.location ∈ w.files.inUse then files else w.files
      index := some index })

def invoke (w : Workspace) (args : List String) (env : Environment) : Outcome × Workspace :=
  let (outcome, files) := CommandLine.run args env w.fresh w.files
  (outcome, { w with files, runs := w.runs + 1 })

end Workspace

end ComponentIdentity
