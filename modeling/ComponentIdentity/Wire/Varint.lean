import ComponentIdentity.Bytes

/-! # Variable-length numbers

Seven bits a byte, the lowest first; the high bit says that more bytes follow.
A number has a shortest spelling, and longer ones that end in zero bits.
-/

namespace ComponentIdentity

/-- How many bytes a number may take, and the largest value of the last of them. -/
structure Varint.Width where
  bytes : Nat
  last : Nat
  deriving DecidableEq, Repr

namespace Varint

def word32 : Width := ⟨5, 0x0f⟩

def word64 : Width := ⟨10, 0x01⟩

inductive Fault where
  | ended
  | unterminated
  deriving DecidableEq, Repr

def encode (n : Nat) : Bytes :=
  if n < 128 then [n.toUInt8]
  else (n % 128 + 128).toUInt8 :: encode (n / 128)

/-- Reads at most `left` bytes. -/
def decodeFrom (last : Nat) : Nat → Bytes → Except Fault (Nat × Bytes)
  | 0, _ => .error .unterminated
  | _ + 1, [] => .error .ended
  | left + 1, b :: rest =>
    if b.toNat < 128 then
      if left = 0 ∧ last < b.toNat then .error .unterminated else .ok (b.toNat, rest)
    else do
      let (high, rest) ← decodeFrom last left rest
      return (b.toNat - 128 + 128 * high, rest)

def decode (width : Width) (bytes : Bytes) : Except Fault (Nat × Bytes) :=
  decodeFrom width.last width.bytes bytes

/-- Reads a number of any size. -/
def decodeAny : Bytes → Option (Nat × Bytes)
  | [] => none
  | b :: rest =>
    if b.toNat < 128 then some (b.toNat, rest)
    else do
      let (high, rest) ← decodeAny rest
      return (b.toNat - 128 + 128 * high, rest)

end Varint

end ComponentIdentity
