import ComponentIdentity.Files

/-! # Index databases

An open index has a copy of its tables. A run is first written to the database
and then to the copy. A database that is open cannot be opened again.
-/

namespace ComponentIdentity

structure OpenIndex where
  location : Location
  tables : IdentityTables

def OpenIndex.summary (index : OpenIndex) : String :=
  s!"RedbIndex \x7b entries: {index.tables.size}, .. \x7d"

namespace Files

def storage {α : Type} (fault : StorageFault) : Except Error α := .error (.file (.storage fault))

/-- The tables of a database; a file of no bytes becomes one if `create` allows it. -/
def tablesAt (files : Files) (l : Location) (create : Bool) : Except Error IdentityTables :=
  if l ∈ files.inUse then storage .inUse
  else
    match files.node? l with
    | some .directory => storage (.system .isDirectory)
    | none | some (.file []) => if create then .ok .empty else storage .emptyDatabase
    | some (.file _) => storage .notDatabase
    | some (.database tables) => .ok tables

/-- Opens a database, making it if there is none. -/
def openIndex (files : Files) (path : Path) : Except Error (OpenIndex × Files) := do
  let l ← (files.target path).mapError (.file ∘ .storage ∘ .system)
  let tables ← files.tablesAt l true
  return (⟨l, tables⟩, files.put l (.database tables))

def openExistingIndex (files : Files) (path : Path) : Except Error OpenIndex :=
  match files.lookup path with
  | .error _ | .ok (_, .directory) => .error (.file (.noDatabase path))
  | .ok (l, _) => do return ⟨l, ← files.tablesAt l false⟩

/-- Writes changes to a database, all at once. -/
def commit (files : Files) (l : Location) (changes : List IdentityChange) : Files :=
  match files.node? l with
  | some (.database tables) => files.put l (.database (tables.apply changes))
  | _ => files

/-- Records a run: the open index after it, the number of changed keys and the files. -/
def record (files : Files) (index : OpenIndex) (cache : RefCache) :
    Except Error (OpenIndex × Nat × Files) := do
  let changes ← index.tables.changes cache
  return ({ index with tables := index.tables.apply changes }, changes.length,
    if changes.isEmpty then files else files.commit index.location changes)

/-- Keeps others from opening a database. -/
def hold (files : Files) (l : Location) : Files :=
  { files with inUse := files.inUse.insert l }

def release (files : Files) (l : Location) : Files :=
  { files with inUse := files.inUse.erase l }

end Files

end ComponentIdentity
