import ComponentIdentity.Report.Walk

/-! # Keys

A project or module has its declared key, followed by the branch if there is
one. A directory or file has the key of the nearest module around it, followed
by its path.
-/

namespace ComponentIdentity

namespace Key

def join (left right : String) : String := left ++ ":" ++ right

def branched (declared : String) : Option String → String
  | none => declared
  | some branch => join declared branch

def bounded (r : Ref) (key : String) : Except ReportFault String :=
  if maxKeyBytes < key.utf8ByteSize then .error (.keyTooLong r) else .ok key

def ofModule (branch : Option String) (c : Component) : Except ReportFault String :=
  match Metadata.named c.key with
  | none => .error (.noKey c.kind c.ref)
  | some declared => bounded c.ref (branched declared branch)

def ofPath (moduleKey : String) (c : Component) : Except ReportFault String :=
  match Metadata.named c.path with
  | none => .error (.noPath c.kind c.ref)
  | some path => bounded c.ref (join moduleKey path)

end Key

/-- The key of a module, and how deep it stands. -/
structure Scope where
  depth : Nat
  key : String
  deriving DecidableEq, Repr

namespace Scope

/-- Innermost first: leaves the modules that do not enclose a component of this depth. -/
def enclosing (depth : Nat) (scopes : List Scope) : List Scope :=
  scopes.dropWhile fun s => decide (depth ≤ s.depth)

/-- The key of a visited component and the scopes from it on. -/
def keyOf (branch : Option String) (scopes : List Scope) (v : Visit) :
    Except ReportFault (String × List Scope) :=
  let around := enclosing v.depth scopes
  if v.component.kind.isModule then do
    let key ← Key.ofModule branch v.component
    return (key, ⟨v.depth, key⟩ :: around)
  else
    match around with
    | [] => .error (.noModule v.component.ref)
    | scope :: _ => do
      let key ← Key.ofPath scope.key v.component
      return (key, around)

end Scope

end ComponentIdentity
