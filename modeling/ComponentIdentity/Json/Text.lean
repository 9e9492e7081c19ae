import ComponentIdentity.Bytes

/-! # Texts in JSON

A text as it is spelled is a list of bytes and of escaped 16-bit units. It need
not spell characters: it does when surrogates come in pairs and the bytes are
UTF-8.
-/

namespace ComponentIdentity.Json

inductive Piece where
  | byte (b : UInt8)
  | unit (n : Nat)
  deriving DecidableEq, Repr

abbrev Spelling := List Piece

namespace Spelling

def quote : UInt8 := 0x22

def backslash : UInt8 := 0x5c

def letterU : UInt8 := 0x75

def hexValue? (b : UInt8) : Option Nat :=
  let n := b.toNat
  if 48 ≤ n ∧ n ≤ 57 then some (n - 48)
  else if 65 ≤ n ∧ n ≤ 70 then some (n - 55)
  else if 97 ≤ n ∧ n ≤ 102 then some (n - 87)
  else none

def unit? (a b c d : UInt8) : Option Nat := do
  return (((← hexValue? a) * 16 + (← hexValue? b)) * 16 + (← hexValue? c)) * 16 + (← hexValue? d)

/-- The letters after a backslash and the bytes that they stand for. -/
def shortEscapes : List (UInt8 × UInt8) :=
  [(0x22, 0x22), (0x5c, 0x5c), (0x2f, 0x2f), (0x62, 0x08), (0x66, 0x0c), (0x6e, 0x0a),
    (0x72, 0x0d), (0x74, 0x09)]

/-- Reads up to the closing quote; `seen` is what came before, in reverse order. -/
def lex (seen : Spelling) : Bytes → Option (Spelling × Bytes)
  | [] => none
  | b :: rest =>
    if b = quote then some (seen.reverse, rest)
    else if b = backslash then
      match rest with
      | [] => none
      | e :: rest =>
        if e = letterU then
          match rest with
          | h₁ :: h₂ :: h₃ :: h₄ :: rest =>
            match unit? h₁ h₂ h₃ h₄ with
            | some n => lex (.unit n :: seen) rest
            | none => none
          | _ => none
        else
          match shortEscapes.lookup e with
          | some c => lex (.byte c :: seen) rest
          | none => none
    else if b < 0x20 then none
    else lex (.byte b :: seen) rest

theorem lex_length {seen s : Spelling} {bytes rest : Bytes} (h : lex seen bytes = some (s, rest)) :
    rest.length < bytes.length := by
  fun_induction lex seen bytes <;> simp_all <;> omega

def isHighSurrogate (n : Nat) : Bool := decide (0xd800 ≤ n ∧ n < 0xdc00)

def isLowSurrogate (n : Nat) : Bool := decide (0xdc00 ≤ n ∧ n < 0xe000)

def pair (high low : Nat) : Nat := 0x10000 + (high - 0xd800) * 0x400 + (low - 0xdc00)

/-- The bytes that are spelled, after those in `done`, which are in reverse order. -/
def bytesFrom (done : Bytes) : Spelling → Option Bytes
  | [] => some done.reverse
  | .byte b :: rest => bytesFrom (b :: done) rest
  | .unit n :: rest =>
    if isHighSurrogate n then
      match rest with
      | .unit m :: rest =>
        if isLowSurrogate m then
          bytesFrom ((String.utf8EncodeChar (Char.ofNat (pair n m))).reverse ++ done) rest
        else none
      | _ => none
    else if isLowSurrogate n then none
    else bytesFrom ((String.utf8EncodeChar (Char.ofNat n)).reverse ++ done) rest

def toText? (s : Spelling) : Option String := (bytesFrom [] s).bind Bytes.toText?

end Spelling

end ComponentIdentity.Json
