import Mathlib.Algebra.Group.Nat.Defs
import ComponentIdentity.Error
import ComponentIdentity.Wire.Varint

/-! # Spellings of numbers

A number is spelled by its digits to the base 128, the lowest first; every digit
but the last is marked by the high bit, and zeros may follow the highest digit.
The reader takes exactly the spellings that fit the width.
-/

namespace ComponentIdentity.Varint

/-- The bytes are digits of the number, with the last one and only the last one unmarked. -/
inductive Digits : Nat → Bytes → Prop where
  | last {b : UInt8} : b.toNat < 128 → Digits b.toNat [b]
  | more {b : UInt8} {n : Nat} {bytes : Bytes} : 128 ≤ b.toNat → Digits n bytes →
      Digits (b.toNat - 128 + 128 * n) (b :: bytes)

/-- No more bytes than the width has, and if there are as many, a last one that is small enough. -/
def Width.Fits (width : Width) (bytes : Bytes) : Prop :=
  bytes.length ≤ width.bytes ∧
    (bytes.length = width.bytes → ∀ b ∈ bytes.getLast?, b.toNat ≤ width.last)

/-- The bytes spell the number within the width. -/
structure Width.Spelled (width : Width) (n : Nat) (bytes : Bytes) : Prop where
  digits : Digits n bytes
  fits : width.Fits bytes

/-- The numbers that a width has room for. -/
def Width.limit (width : Width) : Nat := 128 ^ (width.bytes - 1) * (width.last + 1)

variable {width : Width} {n k last : Nat} {b : UInt8} {bytes rest : Bytes}

theorem Digits.ne_nil (h : Digits n bytes) : bytes ≠ [] := by
  cases h <;> exact List.cons_ne_nil _ _

theorem fits_singleton_iff :
    Width.Fits ⟨k + 1, last⟩ [b] ↔ (k = 0 → b.toNat ≤ last) := by
  simp [Width.Fits]

theorem fits_cons_iff (h : bytes ≠ []) :
    Width.Fits ⟨k + 1, last⟩ (b :: bytes) ↔ Width.Fits ⟨k, last⟩ bytes := by
  obtain ⟨d, bytes, rfl⟩ := List.exists_cons_of_ne_nil h
  simp [Width.Fits, List.getLast?_cons_cons]

theorem decodeFrom_eq_ok_iff :
    decodeFrom last k bytes = .ok (n, rest) ↔
      ∃ front, Width.Spelled ⟨k, last⟩ n front ∧ bytes = front ++ rest := by
  -- What is spelled behind a further byte has one byte less to stand in.
  induction k generalizing n bytes rest with
  | zero =>
    simp only [decodeFrom, reduceCtorEq, false_iff, not_exists, not_and]
    rintro front ⟨hd, hl, -⟩
    exact absurd (List.length_eq_zero_iff.mp (Nat.le_zero.mp hl)) hd.ne_nil
  | succ k ih =>
    cases bytes with
    | nil =>
      simp only [decodeFrom, reduceCtorEq, false_iff, not_exists, not_and]
      rintro front ⟨hd, -⟩ he
      exact hd.ne_nil (List.append_eq_nil_iff.mp he.symm).1
    | cons b bytes =>
      rw [decodeFrom]
      split
      next hb =>
        constructor
        · intro h
          split at h
          · cases h
          next hf =>
            cases h
            exact ⟨[b], ⟨.last hb, fits_singleton_iff.mpr fun hk => by omega⟩, rfl⟩
        · rintro ⟨front, ⟨hd, hf⟩, he⟩
          cases hd with
          | last _ =>
            cases he
            have := fits_singleton_iff.mp hf
            rw [if_neg (by omega)]
            rfl
          | more hd _ =>
            cases he
            omega
      next hb =>
        simp only [Except.bind_eq_ok_iff, Prod.exists, ih]
        constructor
        · rintro ⟨high, rest', ⟨front, ⟨hd, hf⟩, rfl⟩, ⟨⟩⟩
          exact ⟨b :: front, ⟨.more (by omega) hd, (fits_cons_iff hd.ne_nil).mpr hf⟩, rfl⟩
        · rintro ⟨front, ⟨hd, hf⟩, he⟩
          cases hd with
          | last hd =>
            cases he
            exact absurd hd hb
          | more _ hd =>
            cases he
            exact ⟨_, _, ⟨_, ⟨hd, (fits_cons_iff hd.ne_nil).mp hf⟩, rfl⟩, rfl⟩

theorem decode_eq_ok_iff :
    decode width bytes = .ok (n, rest) ↔
      ∃ front, width.Spelled n front ∧ bytes = front ++ rest :=
  decodeFrom_eq_ok_iff

theorem toNat_toUInt8 (h : n < 256) : n.toUInt8.toNat = n := by
  simp [Nat.mod_eq_of_lt h]

theorem digits_encode (n : Nat) : Digits n (encode n) := by
  induction n using Nat.strongRecOn with
  | ind n ih =>
    rw [encode]
    split
    next h =>
      have hb := toNat_toUInt8 (n := n) (by omega)
      have hd := Digits.last (b := n.toUInt8) (by omega)
      rwa [hb] at hd
    next h =>
      have hb := toNat_toUInt8 (n := n % 128 + 128) (by omega)
      have hd := Digits.more (b := (n % 128 + 128).toUInt8) (by omega) (ih (n / 128) (by omega))
      have hn : n % 128 + 128 - 128 + 128 * (n / 128) = n := by omega
      rwa [hb, hn] at hd

theorem fits_encode (hl : last < 128) (h : n < 128 ^ k * (last + 1)) :
    Width.Fits ⟨k + 1, last⟩ (encode n) := by
  induction k generalizing n with
  | zero =>
    rw [encode, if_pos (by omega), fits_singleton_iff, toNat_toUInt8 (by omega)]
    omega
  | succ k ih =>
    rw [encode]
    split
    · exact fits_singleton_iff.mpr nofun
    · have hn : n / 128 < 128 ^ k * (last + 1) := by
        rw [Nat.div_lt_iff_lt_mul (by decide), Nat.mul_right_comm, ← Nat.pow_succ]
        exact h
      exact (fits_cons_iff (digits_encode _).ne_nil).mpr (ih hn)

theorem spelled_encode (hw : 0 < width.bytes) (hl : width.last < 128) (h : n < width.limit) :
    width.Spelled n (encode n) := by
  obtain ⟨_ | k, last⟩ := width
  · cases hw
  · exact ⟨digits_encode n, fits_encode hl h⟩

theorem Digits.lt_of_fits (hd : Digits n bytes) (hf : Width.Fits ⟨k + 1, last⟩ bytes) :
    n < 128 ^ k * (last + 1) := by
  induction hd generalizing k with
  | @last b hb =>
    cases k with
    | zero =>
      have := fits_singleton_iff.mp hf rfl
      omega
    | succ k =>
      have hp : 0 < 128 ^ k * (last + 1) := Nat.mul_pos (Nat.pow_pos (by decide)) (by omega)
      rw [Nat.pow_succ, Nat.mul_right_comm]
      omega
  | @more b n bytes hb hd ih =>
    rw [fits_cons_iff hd.ne_nil] at hf
    cases k with
    | zero => exact absurd (List.length_eq_zero_iff.mp (Nat.le_zero.mp hf.1)) hd.ne_nil
    | succ k =>
      have hn := ih hf
      have := b.toNat_lt
      rw [Nat.pow_succ, Nat.mul_right_comm]
      omega

theorem Width.Spelled.lt_limit (h : width.Spelled n bytes) (hw : 0 < width.bytes) :
    n < width.limit := by
  obtain ⟨_ | k, last⟩ := width
  · cases hw
  · exact h.digits.lt_of_fits h.fits

end ComponentIdentity.Varint
