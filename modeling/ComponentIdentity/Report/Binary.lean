import ComponentIdentity.Report.Payload

/-! # Binary reports

A header of four magic bytes and a version, then the payload: the metadata and
the components. What follows the payload is ignored.
-/

namespace ComponentIdentity

structure Header where
  magic : Bytes
  version : UInt8
  deriving DecidableEq, Repr

namespace Header

/-- The letters CREP. -/
def magicBytes : Bytes := [0x43, 0x52, 0x45, 0x50]

def current : Header := ⟨magicBytes, 1⟩

def size : Nat := 5

def toBytes (h : Header) : Bytes := h.magic ++ [h.version]

def ofBytes : Bytes → Except EncodingFault Header
  | a :: b :: c :: d :: version :: _ => .ok ⟨[a, b, c, d], version⟩
  | _ => .error .shortHeader

def validate (h : Header) : Except EncodingFault Unit :=
  if h.magic ≠ magicBytes then .error .magic
  else if h.version ≠ current.version then .error (.version h.version)
  else .ok ()

end Header

namespace Report

def toBytes (report : Report) : Bytes :=
  Header.current.toBytes ++ Payload.writeMetadata report.metadata ++
    Payload.writeList Payload.writeComponent report.toList

/-- The metadata and the components of the payload, in payload order. -/
def readPayload (bytes : Bytes) : Except PayloadFault (Metadata × List Component) := do
  let (m, rest) ← Payload.readMetadata bytes
  let (components, _) ← Payload.readList Payload.readComponent rest
  return (m, components)

def decodeFields (bytes : Bytes) : Except EncodingFault (Metadata × List Component) := do
  if bytes.length < Header.size then throw .tooShort
  if maxEncodedBytes < bytes.length then throw (.tooLarge bytes.length)
  let header ← Header.ofBytes bytes
  header.validate
  (readPayload (bytes.drop Header.size)).mapError .payload

def ofBytes (bytes : Bytes) : Except Error Report := do
  let (m, components) ← (decodeFields bytes).mapError .serialization
  (ofComponents m components).mapError .malformedReport

end Report

end ComponentIdentity
