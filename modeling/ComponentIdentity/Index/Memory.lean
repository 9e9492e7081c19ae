import ComponentIdentity.Index

/-! # The index in memory

A map from keys to identifiers, with the set of the identifiers in it.
-/

namespace ComponentIdentity

structure MemoryIndex where
  uuidsByKey : Std.ExtTreeMap String String := ∅
  uuids : Std.ExtTreeSet String := ∅
  deriving DecidableEq

namespace MemoryIndex

def empty : MemoryIndex := {}

def uuidForKey (index : MemoryIndex) (key : String) : Option String := index.uuidsByKey[key]?

def containsUuid (index : MemoryIndex) (uuid : String) : Bool := index.uuids.contains uuid

def size (index : MemoryIndex) : Nat := index.uuidsByKey.size

def isEmpty (index : MemoryIndex) : Bool := index.uuidsByKey.isEmpty

/-- Replaces what the key had. The replaced identifier stays if another key still has it. -/
def insert (index : MemoryIndex) (key uuid : String) : MemoryIndex :=
  let uuidsByKey := index.uuidsByKey.insert key uuid
  let kept :=
    match index.uuidsByKey[key]? with
    | none => index.uuids
    | some previous =>
      if previous ≠ uuid ∧ previous ∉ uuidsByKey.values then index.uuids.erase previous
      else index.uuids
  ⟨uuidsByKey, kept.insert uuid⟩

def ofList (entries : List (String × String)) : MemoryIndex :=
  entries.foldl (fun index e => index.insert e.1 e.2) empty

/-- Adds the identities of a run, in the order of their refs. -/
def merge (index : MemoryIndex) (cache : RefCache) : MemoryIndex :=
  cache.toList.foldl (fun index e => index.insert e.2.key e.2.uuid) index

def ofCache (cache : RefCache) : MemoryIndex := empty.merge cache

def toIndex (index : MemoryIndex) : IdentityIndex where
  uuidForKey key := .ok (index.uuidForKey key)
  containsUuid uuid := .ok (index.containsUuid uuid)

end MemoryIndex

end ComponentIdentity
