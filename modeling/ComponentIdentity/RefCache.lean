import Std.Data.ExtTreeMap
import Std.Data.ExtTreeSet
import ComponentIdentity.Error

/-! # Caches of resolved components

A cache holds the components of one run by ref, knows the ref that owns each
key, and the identifiers given out. It refuses a ref, a key or an identifier
that it has already.
-/

namespace ComponentIdentity

structure RefCache where
  byRef : Std.ExtTreeMap Ref ResolvedComponent := ∅
  byKey : Std.ExtTreeMap String Ref := ∅
  uuids : Std.ExtTreeSet String := ∅

namespace RefCache

def empty : RefCache := {}

def get? (cache : RefCache) (r : Ref) : Option ResolvedComponent := cache.byRef[r]?

def getByKey? (cache : RefCache) (key : String) : Option ResolvedComponent :=
  cache.byKey[key]?.bind cache.get?

def containsUuid (cache : RefCache) (uuid : String) : Bool := cache.uuids.contains uuid

def size (cache : RefCache) : Nat := cache.byRef.size

def isEmpty (cache : RefCache) : Bool := cache.byRef.isEmpty

/-- The components with the refs they are stored under, in the order of these refs. -/
def toList (cache : RefCache) : List (Ref × ResolvedComponent) := cache.byRef.toList

def insertFresh (cache : RefCache) (r : Ref) (c : ResolvedComponent) : RefCache where
  byRef := cache.byRef.insert r c
  byKey := cache.byKey.insert c.key r
  uuids := cache.uuids.insert c.uuid

/-- Stores a component under a ref; a taken ref counts before a taken key, and that before a
taken identifier. -/
def put (cache : RefCache) (r : Ref) (c : ResolvedComponent) : Except Error RefCache :=
  if r ∈ cache.byRef then .error (.duplicateRef r)
  else
    match cache.byKey[c.key]? with
    | some owner => .error (.malformedReport (.sameKey owner r c.key))
    | none =>
      if cache.containsUuid c.uuid then .error (.corruptIndex c.key c.uuid)
      else .ok (cache.insertFresh r c)

/-- The cache of the listed components, each under its own ref. -/
def ofList (components : List ResolvedComponent) : Except Error RefCache :=
  components.foldlM (fun cache c => cache.put c.ref c) empty

end RefCache

end ComponentIdentity
