/-! # Bytes

Byte strings as lists, their hexadecimal text, and texts as bytes in UTF-8.
-/

namespace ComponentIdentity

abbrev Bytes := List UInt8

namespace Bytes

def hexDigit (n : Nat) : Char := "0123456789abcdef".toList.getD n '0'

def hexByte (b : UInt8) : List Char := [hexDigit (b.toNat / 16), hexDigit (b.toNat % 16)]

def toHex (bytes : Bytes) : String := String.ofList (bytes.flatMap hexByte)

def ofText (s : String) : Bytes := s.toUTF8.data.toList

theorem ofText_eq_flatMap (s : String) : ofText s = s.toList.flatMap String.utf8EncodeChar := by
  rw [ofText, String.toUTF8_eq_toByteArray, ← String.utf8Encode_toList, List.utf8Encode,
    List.toList_data_toByteArray]

/-- The text that the bytes spell, if they are valid UTF-8. -/
def toText? (bytes : Bytes) : Option String := String.fromUTF8? ⟨bytes.toArray⟩

@[simp]
theorem toText?_ofText (s : String) : toText? (ofText s) = some s := by
  have h : (⟨s.toUTF8.data.toList.toArray⟩ : ByteArray) = s.toByteArray := rfl
  simp only [toText?, ofText, String.fromUTF8?, h, s.isValidUTF8, dite_true]
  rfl

theorem eq_ofText_of_toText? {bytes : Bytes} {s : String} (h : toText? bytes = some s) :
    bytes = ofText s := by
  simp only [toText?, String.fromUTF8?] at h
  split at h
  · cases h; rfl
  · simp at h

theorem toText?_eq_some_iff {bytes : Bytes} {s : String} :
    toText? bytes = some s ↔ bytes = ofText s :=
  ⟨eq_ofText_of_toText?, fun h => h ▸ toText?_ofText s⟩

/-- The eight bytes of a number below 2 ^ 64, the highest first. -/
def ofNat64 (n : Nat) : Bytes := (List.range 8).map fun i => (n >>> (8 * (7 - i))).toUInt8

end Bytes

end ComponentIdentity
