import ComponentIdentity.Uuid.Sha1

/-! # Universally unique identifiers

Sixteen bytes with a version and a variant, written in groups of 8, 4, 4, 4 and
12 hexadecimal digits.
-/

namespace ComponentIdentity

structure Uuid where
  bytes : Vector UInt8 16
  deriving DecidableEq, Repr

namespace Uuid

/-- The first sixteen bytes; missing ones are zero. -/
def ofBytes (bytes : Bytes) : Uuid := ⟨Vector.ofFn fun i => bytes.getD i 0⟩

/-- Sets the four version bits and the two variant bits. -/
def stamp (version : UInt8) (u : Uuid) : Uuid :=
  let versioned : UInt8 := (u.bytes[6] &&& (0x0f : UInt8)) ||| (version <<< 4)
  let variant : UInt8 := (u.bytes[8] &&& (0x3f : UInt8)) ||| (0x80 : UInt8)
  ⟨(u.bytes.set 6 versioned).set 8 variant⟩

/-- The identifier of a name within a namespace (version 5). -/
def nameBased (space : Uuid) (name : Bytes) : Uuid :=
  (ofBytes (Sha1.digest (space.bytes.toList ++ name))).stamp 5

/-- An identifier of the given random bytes (version 4). -/
def random (bytes : Bytes) : Uuid := (ofBytes bytes).stamp 4

/-- The namespace of object identifiers. -/
def oid : Uuid :=
  ofBytes [0x6b, 0xa7, 0xb8, 0x12, 0x9d, 0xad, 0x11, 0xd1,
    0x80, 0xb4, 0x00, 0xc0, 0x4f, 0xd4, 0x30, 0xc8]

def toString (u : Uuid) : String :=
  let group (start length : Nat) : String := Bytes.toHex ((u.bytes.toList.drop start).take length)
  "-".intercalate [group 0 4, group 4 2, group 6 2, group 8 2, group 10 6]

instance : ToString Uuid := ⟨toString⟩

end Uuid

end ComponentIdentity
