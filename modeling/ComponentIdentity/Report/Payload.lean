import ComponentIdentity.Report
import ComponentIdentity.Wire.Varint

/-! # Payloads

The fields of a report in a fixed order: numbers as varints, an option behind a
byte 0 or 1, texts and lists behind their lengths. Each field has a writer and
a reader that leaves the bytes after it.
-/

namespace ComponentIdentity.Payload

abbrev Reader := StateT Bytes (Except PayloadFault)

def ofVarint : Varint.Fault → PayloadFault
  | .ended => .endOfInput
  | .unterminated => .unterminatedVarint

def readVarint (width : Varint.Width) : Reader Nat :=
  fun bytes => (Varint.decode width bytes).mapError ofVarint

def readByte : Reader UInt8
  | [] => .error .endOfInput
  | b :: rest => .ok (b, rest)

def writeRef (r : Ref) : Bytes := Varint.encode r.toNat

def readRef : Reader Ref := do
  return (← readVarint Varint.word32).toUInt32

def writeKind (k : Kind) : Bytes := Varint.encode k.rank

def readKind : Reader Kind := do
  match Kind.ofRank? (← readVarint Varint.word32) with
  | some k => return k
  | none => throw .unknownKind

def writeText (s : String) : Bytes := Varint.encode s.utf8ByteSize ++ Bytes.ofText s

def readBytes (n : Nat) : Reader Bytes := fun bytes =>
  let taken := bytes.take n
  if taken.length < n then .error .endOfInput else .ok (taken, bytes.drop n)

def readText : Reader String := do
  let bytes ← readBytes (← readVarint Varint.word64)
  match Bytes.toText? bytes with
  | some s => return s
  | none => throw .invalidText

def writeOption {α : Type} (write : α → Bytes) : Option α → Bytes
  | none => [0]
  | some a => 1 :: write a

def readOption {α : Type} (read : Reader α) : Reader (Option α) := do
  match (← readByte).toNat with
  | 0 => return none
  | 1 => return some (← read)
  | _ => throw .optionTag

/-- Reads `n` values after those in `done`, which are in reverse order. -/
def readMany {α : Type} (read : Reader α) : Nat → List α → Reader (List α)
  | 0, done => return done.reverse
  | n + 1, done => do readMany read n ((← read) :: done)

def writeList {α : Type} (write : α → Bytes) (as : List α) : Bytes :=
  Varint.encode as.length ++ as.flatMap write

def readList {α : Type} (read : Reader α) : Reader (List α) := do
  readMany read (← readVarint Varint.word64) []

def writeMetadata (m : Metadata) : Bytes := writeRef m.root ++ writeOption writeText m.branch

def readMetadata : Reader Metadata := do
  let root ← readRef
  let branch ← readOption readText
  return { root, branch }

def writeComponent (c : Component) : Bytes :=
  writeRef c.ref ++ writeKind c.kind ++ writeOption writeText c.key ++
    writeOption writeText c.path ++ writeList writeRef c.children

def readComponent : Reader Component := do
  let ref ← readRef
  let kind ← readKind
  let key ← readOption readText
  let path ← readOption readText
  let children ← readList readRef
  return { ref, kind, key, path, children }

end ComponentIdentity.Payload
