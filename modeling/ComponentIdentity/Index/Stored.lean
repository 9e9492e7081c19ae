import ComponentIdentity.Index

/-! # The index that is stored

Two tables, from keys to identifiers and back. A run is recorded as a whole or
refused as a whole: an identifier may move from one key to another only if the
run gives the first key another one.
-/

namespace ComponentIdentity

structure IdentityTables where
  uuidsByKey : Std.ExtTreeMap String String := ∅
  keysByUuid : Std.ExtTreeMap String String := ∅
  deriving DecidableEq

/-- A key with its new identifier and the one it had. -/
structure IdentityChange where
  key : String
  uuid : String
  previous : Option String
  deriving DecidableEq, Repr

namespace IdentityTables

def empty : IdentityTables := {}

def size (tables : IdentityTables) : Nat := tables.uuidsByKey.size

def isEmpty (tables : IdentityTables) : Bool := tables.uuidsByKey.isEmpty

def uuidForKey (tables : IdentityTables) (key : String) : Option String := tables.uuidsByKey[key]?

def containsUuid (tables : IdentityTables) (uuid : String) : Bool := tables.keysByUuid.contains uuid

/-- The keys and their identifiers, in the order of the keys. -/
def entries (tables : IdentityTables) : List (String × String) := tables.uuidsByKey.toList

def toIndex (tables : IdentityTables) : IdentityIndex where
  uuidForKey key := .ok (tables.uuidForKey key)
  containsUuid uuid := .ok (tables.containsUuid uuid)

/-- The identifier belongs to another key, and the run leaves it there. -/
def keptByOther (tables : IdentityTables) (cache : RefCache) (c : ResolvedComponent) : Bool :=
  match tables.keysByUuid[c.uuid]? with
  | none => false
  | some owner =>
    owner ≠ c.key && ((cache.getByKey? owner).all fun o => o.uuid == c.uuid)

def change? (tables : IdentityTables) (c : ResolvedComponent) : Option IdentityChange :=
  let previous := tables.uuidForKey c.key
  if previous = some c.uuid then none else some ⟨c.key, c.uuid, previous⟩

/-- Refuses an identifier that the run gave out before, or that another key keeps. -/
def accept (tables : IdentityTables) (cache : RefCache) (seen : Std.ExtTreeSet String)
    (c : ResolvedComponent) : Except Error (Std.ExtTreeSet String) :=
  if seen.contains c.uuid || tables.keptByOther cache c then .error (.corruptIndex c.key c.uuid)
  else .ok (seen.insert c.uuid)

def release (tables : IdentityTables) (change : IdentityChange) : IdentityTables :=
  match change.previous with
  | none => tables
  | some previous => { tables with keysByUuid := tables.keysByUuid.erase previous }

def assign (tables : IdentityTables) (change : IdentityChange) : IdentityTables where
  uuidsByKey := tables.uuidsByKey.insert change.key change.uuid
  keysByUuid := tables.keysByUuid.insert change.uuid change.key

/-- Releases every replaced identifier before the first is assigned, so keys may swap theirs. -/
def apply (tables : IdentityTables) (changes : List IdentityChange) : IdentityTables :=
  changes.foldl assign (changes.foldl release tables)

/-- What recording a run changes: the keys whose identifier is new or another one. -/
def changes (tables : IdentityTables) (cache : RefCache) : Except Error (List IdentityChange) := do
  let components := cache.toList.map (·.2)
  let _ ← components.foldlM (tables.accept cache) ∅
  return components.filterMap tables.change?

/-- The tables after a run, and the number of keys that were added or changed. -/
def record (tables : IdentityTables) (cache : RefCache) : Except Error (IdentityTables × Nat) := do
  let changes ← tables.changes cache
  return (tables.apply changes, changes.length)

end IdentityTables

end ComponentIdentity
