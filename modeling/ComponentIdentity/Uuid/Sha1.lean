import ComponentIdentity.Bytes

/-! # SHA-1

The 160-bit digest of a message: padding to whole blocks of sixteen words, and
eighty rounds on each block.
-/

namespace ComponentIdentity.Sha1

def rotateLeft (x : UInt32) (n : UInt32) : UInt32 := (x <<< n) ||| (x >>> (32 - n))

structure State where
  a : UInt32
  b : UInt32
  c : UInt32
  d : UInt32
  e : UInt32
  deriving DecidableEq, Repr

namespace State

def initial : State := ⟨0x67452301, 0xEFCDAB89, 0x98BADCFE, 0x10325476, 0xC3D2E1F0⟩

def add (s t : State) : State := ⟨s.a + t.a, s.b + t.b, s.c + t.c, s.d + t.d, s.e + t.e⟩

def words (s : State) : List UInt32 := [s.a, s.b, s.c, s.d, s.e]

/-- The function and the constant of a round change every twenty rounds. -/
def mix (s : State) (t : Nat) : UInt32 :=
  if t < 20 then ((s.b &&& s.c) ||| (~~~s.b &&& s.d)) + 0x5A827999
  else if t < 40 then (s.b ^^^ s.c ^^^ s.d) + 0x6ED9EBA1
  else if t < 60 then ((s.b &&& s.c) ||| (s.b &&& s.d) ||| (s.c &&& s.d)) + 0x8F1BBCDC
  else (s.b ^^^ s.c ^^^ s.d) + 0xCA62C1D6

def round (s : State) (t : Nat) (word : UInt32) : State :=
  ⟨rotateLeft s.a 5 + s.mix t + s.e + word, s.a, rotateLeft s.b 30, s.c, s.d⟩

end State

/-- A one bit, zeros up to eight bytes before the end of a block, and the length in bits. -/
def pad (message : Bytes) : Array UInt8 :=
  let zeros := (119 - message.length % 64) % 64
  (message ++ 0x80 :: List.replicate zeros 0 ++ Bytes.ofNat64 (8 * message.length)).toArray

def wordAt (bytes : Array UInt8) (i : Nat) : UInt32 :=
  let byte (k : Nat) : UInt32 := (bytes.getD (i + k) 0).toUInt32
  (byte 0 <<< 24) ||| (byte 1 <<< 16) ||| (byte 2 <<< 8) ||| byte 3

/-- The eighty words of a block: its own sixteen, then each from four before it. -/
def schedule (bytes : Array UInt8) (start : Nat) : Array UInt32 :=
  (List.range 64).foldl
    (fun w t => w.push (rotateLeft
      (w.getD (t + 13) 0 ^^^ w.getD (t + 8) 0 ^^^ w.getD (t + 2) 0 ^^^ w.getD t 0) 1))
    ((List.range 16).map fun i => wordAt bytes (start + 4 * i)).toArray

def compress (bytes : Array UInt8) (s : State) (block : Nat) : State :=
  let w := schedule bytes (64 * block)
  s.add ((List.range 80).foldl (fun s t => s.round t (w.getD t 0)) s)

def wordBytes (w : UInt32) : Bytes :=
  [(w >>> 24).toUInt8, (w >>> 16).toUInt8, (w >>> 8).toUInt8, w.toUInt8]

def digest (message : Bytes) : Bytes :=
  let bytes := pad message
  ((List.range (bytes.size / 64)).foldl (compress bytes) State.initial).words.flatMap wordBytes

theorem digest_length (message : Bytes) : (digest message).length = 20 := by
  simp [digest, State.words, wordBytes]

end ComponentIdentity.Sha1
