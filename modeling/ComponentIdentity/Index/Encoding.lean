import ComponentIdentity.Index.Stored
import ComponentIdentity.Wire.Varint

/-! # Index files

The contents of a database file: eight magic bytes and the two tables, each a
count and that many pairs of texts behind their lengths. The first magic byte
begins no text, so no database can be taken for one.
-/

namespace ComponentIdentity.IdentityTables

def magicBytes : Bytes := [0x89, 0x43, 0x49, 0x44, 0x58, 0x0d, 0x0a, 0x1a]

def writeText (s : String) : Bytes := Varint.encode s.utf8ByteSize ++ Bytes.ofText s

def readText (bytes : Bytes) : Option (String × Bytes) := do
  let (n, rest) ← Varint.decodeAny bytes
  let taken := rest.take n
  if taken.length < n then none
  else return (← Bytes.toText? taken, rest.drop n)

def writePair (p : String × String) : Bytes := writeText p.1 ++ writeText p.2

def readPair (bytes : Bytes) : Option ((String × String) × Bytes) := do
  let (a, rest) ← readText bytes
  let (b, rest) ← readText rest
  return ((a, b), rest)

def writeTable (table : Std.ExtTreeMap String String) : Bytes :=
  Varint.encode table.size ++ table.toList.flatMap writePair

/-- Adds `n` pairs to a table. -/
def readPairs : Nat → Std.ExtTreeMap String String → Bytes →
    Option (Std.ExtTreeMap String String × Bytes)
  | 0, table, bytes => some (table, bytes)
  | n + 1, table, bytes =>
    match readPair bytes with
    | none => none
    | some ((a, b), rest) => readPairs n (table.insert a b) rest

def readTable (bytes : Bytes) : Option (Std.ExtTreeMap String String × Bytes) := do
  let (n, rest) ← Varint.decodeAny bytes
  readPairs n ∅ rest

def toBytes (tables : IdentityTables) : Bytes :=
  magicBytes ++ writeTable tables.uuidsByKey ++ writeTable tables.keysByUuid

def ofBytes? (bytes : Bytes) : Option IdentityTables :=
  if magicBytes.isPrefixOf bytes then do
    let (uuidsByKey, rest) ← readTable (bytes.drop magicBytes.length)
    let (keysByUuid, rest) ← readTable rest
    if rest = [] then return { uuidsByKey, keysByUuid } else none
  else none

end ComponentIdentity.IdentityTables
