import Mathlib.Data.List.Basic
import ComponentIdentity.Json.Token

/-! # Texts and numbers in JSON

How the texts of a JSON document are written, with their escapes, and its numbers.
The lexer reads what is written and leaves the bytes after it; for a number they
must not go on with it.
-/

namespace ComponentIdentity

theorem List.lookup_eq_some_iff_mem {α β : Type} [BEq α] [LawfulBEq α] {l : List (α × β)} {a : α}
    {b : β} (h : (l.map (·.1)).Nodup) : l.lookup a = some b ↔ (a, b) ∈ l := by
  rw [List.lookup_eq_some_iff]
  constructor
  · rintro ⟨front, back, rfl, -⟩
    simp
  · intro hm
    obtain ⟨front, back, rfl⟩ := List.append_of_mem hm
    refine ⟨front, back, rfl, fun p hp => bne_iff_ne.mpr ?_⟩
    rintro rfl
    rw [List.map_append, List.map_cons, List.nodup_append] at h
    exact h.2.2 p.1 (List.mem_map_of_mem hp) p.1 (by simp) rfl

namespace Json

namespace Spelling

variable {b : UInt8} {n : Nat} {s seen : Spelling} {bytes front rest : Bytes}

/-- A digit to the base 16; letters may be small or capital. -/
def HexDigit (n : Nat) (b : UInt8) : Prop :=
  (n < 10 ∧ b.toNat = 48 + n) ∨ (10 ≤ n ∧ n < 16 ∧ (b.toNat = 55 + n ∨ b.toNat = 87 + n))

/-- The ways to write a piece: as it is, by the letter of a short escape, or by four digits. -/
inductive WrittenPiece : Piece → Bytes → Prop where
  | plain {b : UInt8} : 0x20 ≤ b → b ≠ quote → b ≠ backslash → WrittenPiece (.byte b) [b]
  | short {letter b : UInt8} : (letter, b) ∈ shortEscapes →
      WrittenPiece (.byte b) [backslash, letter]
  | unit {n₁ n₂ n₃ n₄ : Nat} {h₁ h₂ h₃ h₄ : UInt8} :
      HexDigit n₁ h₁ → HexDigit n₂ h₂ → HexDigit n₃ h₃ → HexDigit n₄ h₄ →
      WrittenPiece (.unit (((n₁ * 16 + n₂) * 16 + n₃) * 16 + n₄))
        [backslash, letterU, h₁, h₂, h₃, h₄]

inductive Written : Spelling → Bytes → Prop where
  | nil : Written [] []
  | cons {p : Piece} {s : Spelling} {front back : Bytes} : WrittenPiece p front →
      Written s back → Written (p :: s) (front ++ back)

theorem hexValue?_eq_some_iff : hexValue? b = some n ↔ HexDigit n b := by
  unfold hexValue? HexDigit
  dsimp only
  split
  · simp only [Option.some.injEq]
    omega
  split
  · simp only [Option.some.injEq]
    omega
  split
  · simp only [Option.some.injEq]
    omega
  · simp only [reduceCtorEq, false_iff]
    omega

theorem unit?_eq_some_iff {h₁ h₂ h₃ h₄ : UInt8} :
    unit? h₁ h₂ h₃ h₄ = some n ↔ ∃ n₁ n₂ n₃ n₄, HexDigit n₁ h₁ ∧ HexDigit n₂ h₂ ∧
      HexDigit n₃ h₃ ∧ HexDigit n₄ h₄ ∧ n = ((n₁ * 16 + n₂) * 16 + n₃) * 16 + n₄ := by
  simp only [unit?, Option.bind_eq_bind, Option.bind_eq_some_iff, hexValue?_eq_some_iff,
    Option.pure_def, Option.some.injEq]
  constructor
  · rintro ⟨n₁, h₁, n₂, h₂, n₃, h₃, n₄, h₄, rfl⟩
    exact ⟨n₁, n₂, n₃, n₄, h₁, h₂, h₃, h₄, rfl⟩
  · rintro ⟨n₁, n₂, n₃, n₄, h₁, h₂, h₃, h₄, rfl⟩
    exact ⟨n₁, h₁, n₂, h₂, n₃, h₃, n₄, h₄, rfl⟩

theorem lookup_shortEscapes_iff {letter : UInt8} :
    shortEscapes.lookup letter = some b ↔ (letter, b) ∈ shortEscapes :=
  List.lookup_eq_some_iff_mem (by decide)

theorem letterU_not_mem : ∀ e ∈ shortEscapes, e.1 ≠ letterU := by
  simp [shortEscapes, letterU]

theorem lex_quote : lex seen (quote :: rest) = some (seen.reverse, rest) := by
  rw [lex.eq_def]
  exact if_pos rfl

theorem lex_of_writtenPiece {p : Piece} (h : WrittenPiece p front) :
    lex seen (front ++ rest) = lex (p :: seen) rest := by
  have hne : backslash ≠ quote := by decide
  cases h with
  | plain hc hq hb =>
    rw [List.singleton_append, lex.eq_def]
    simp only [if_neg hq, if_neg hb, if_neg (UInt8.not_lt.mpr hc)]
  | short hm =>
    have hl := lookup_shortEscapes_iff.mpr hm
    rw [List.cons_append, List.singleton_append, lex.eq_def]
    simp only [if_neg hne, ↓reduceIte, if_neg (letterU_not_mem _ hm), hl]
  | unit h₁ h₂ h₃ h₄ =>
    have hunit := unit?_eq_some_iff.mpr ⟨_, _, _, _, h₁, h₂, h₃, h₄, rfl⟩
    simp only [List.cons_append, List.nil_append, lex.eq_3, if_neg hne, ↓reduceIte, hunit]

theorem lex_of_written (h : Written s front) :
    lex seen (front ++ quote :: rest) = some (seen.reverse ++ s, rest) := by
  induction h generalizing seen with
  | nil => rw [List.nil_append, lex_quote, List.append_nil]
  | cons hp _ ih =>
    rw [List.append_assoc, lex_of_writtenPiece hp, ih, List.reverse_cons, List.append_assoc]
    rfl

theorem exists_written_of_lex (h : lex seen bytes = some (s, rest)) :
    ∃ s' front, Written s' front ∧ s = seen.reverse ++ s' ∧ bytes = front ++ quote :: rest := by
  -- The cases in which a piece is read put it in front of those that are read after it.
  have hcons : ∀ {p : Piece} {seen : Spelling} {front bytes : Bytes}, WrittenPiece p front →
      (∃ s' back, Written s' back ∧ s = List.reverse (p :: seen) ++ s' ∧
        bytes = back ++ quote :: rest) →
      ∃ s' back, Written s' back ∧ s = seen.reverse ++ s' ∧
        front ++ bytes = back ++ quote :: rest := by
    rintro p seen front bytes hp ⟨s', back, hw, rfl, rfl⟩
    exact ⟨p :: s', front ++ back, .cons hp hw, by simp, (List.append_assoc _ _ _).symm⟩
  fun_induction lex seen bytes with
  | case1 | case3 | case5 | case6 | case8 | case9 => cases h
  | case2 seen bytes =>
    cases h
    exact ⟨[], [], .nil, by simp, rfl⟩
  | case4 seen h₁ h₂ h₃ h₄ bytes n hn _ ih =>
    obtain ⟨_, _, _, _, hd₁, hd₂, hd₃, hd₄, rfl⟩ := unit?_eq_some_iff.mp hn
    exact hcons (.unit hd₁ hd₂ hd₃ hd₄) (ih h)
  | case7 seen letter bytes _ c hl _ ih =>
    exact hcons (.short (lookup_shortEscapes_iff.mp hl)) (ih h)
  | case10 seen b bytes hq hb hc ih => exact hcons (.plain (UInt8.not_lt.mp hc) hq hb) (ih h)

/-- What is read up to the closing quote is what is written there. -/
theorem lex_eq_some_iff :
    lex [] bytes = some (s, rest) ↔ ∃ front, Written s front ∧ bytes = front ++ quote :: rest := by
  constructor
  · intro h
    obtain ⟨s', front, hw, rfl, rfl⟩ := exists_written_of_lex h
    exact ⟨front, hw, rfl⟩
  · rintro ⟨front, hw, rfl⟩
    exact lex_of_written hw

end Spelling

namespace Number

variable {ds minus part power marks bytes front rest : Bytes} {s : List Char}

def Digits (ds : Bytes) : Prop := ds ≠ [] ∧ ∀ b ∈ ds, isDigit b = true

/-- Digits, which begin with a zero only if there is no other. -/
def Whole (ds : Bytes) : Prop := Digits ds ∧ (ds.head? = some 48 → ds.length = 1)

inductive Fraction : Bytes → Prop where
  | absent : Fraction []
  | point {ds : Bytes} : Digits ds → Fraction (0x2e :: ds)

inductive Exponent : Bytes → Prop where
  | absent : Exponent []
  | letter {b : UInt8} {mark ds : Bytes} : b = 0x65 ∨ b = 0x45 →
      (mark = [] ∨ mark = [0x2b] ∨ mark = [0x2d]) → Digits ds → Exponent (b :: mark ++ ds)

/-- Perhaps a minus, a whole number, and perhaps a fraction and an exponent. -/
def Written (bytes : Bytes) : Prop :=
  ∃ minus whole part power, (minus = [] ∨ minus = [0x2d]) ∧ Whole whole ∧ Fraction part ∧
    Exponent power ∧ bytes = minus ++ whole ++ part ++ power

def NoDigit (rest : Bytes) : Prop := ∀ b ∈ rest.head?, isDigit b = false

/-- Nothing comes next that a number might go on with. -/
def Stops (rest : Bytes) : Prop :=
  NoDigit rest ∧ ∀ b ∈ rest.head?, b ≠ 0x2e ∧ b ≠ 0x65 ∧ b ≠ 0x45

theorem noDigit_cons {b : UInt8} (h : isDigit b = false) : NoDigit (b :: rest) := by
  rintro _ ⟨⟩
  exact h

theorem stops_cons {b : UInt8} (h : isDigit b = false ∧ b ≠ 0x2e ∧ b ≠ 0x65 ∧ b ≠ 0x45) :
    Stops (b :: rest) := by
  constructor <;> rintro _ ⟨⟩
  · exact h.1
  · exact h.2

theorem Digits.exists_cons (h : Digits ds) : ∃ b bs, ds = b :: bs ∧ isDigit b = true := by
  obtain ⟨b, bs, rfl⟩ := List.exists_cons_of_ne_nil h.1
  exact ⟨b, bs, rfl, h.2 b (by simp)⟩

theorem digits?_append (h : Digits ds) (hr : NoDigit rest) :
    digits? (ds ++ rest) = some (ds, rest) := by
  have htake : rest.takeWhile isDigit = [] ∧ rest.dropWhile isDigit = rest := by
    cases rest with
    | nil => exact ⟨rfl, rfl⟩
    | cons b rest => simp [hr b rfl]
  rw [digits?, List.takeWhile_append_of_pos h.2, List.dropWhile_append_of_pos h.2, htake.1,
    htake.2, List.append_nil]
  obtain ⟨b, bs, rfl, -⟩ := h.exists_cons
  rfl

theorem digits_of_digits? (h : digits? bytes = some (ds, rest)) :
    Digits ds ∧ bytes = ds ++ rest := by
  rw [digits?] at h
  split at h
  · cases h
  next hne =>
    cases h
    exact ⟨⟨hne, List.all_eq_true.mp List.all_takeWhile⟩, List.takeWhile_append_dropWhile.symm⟩

theorem integer?_append (h : Whole ds) (hr : NoDigit rest) :
    integer? (ds ++ rest) = some (ds, rest) := by
  simp only [integer?, digits?_append h.1 hr, Option.bind_eq_bind, Option.bind_some]
  rw [if_neg fun hz => hz.2 (h.2 hz.1)]
  rfl

theorem whole_of_integer? (h : integer? bytes = some (ds, rest)) :
    Whole ds ∧ bytes = ds ++ rest := by
  simp only [integer?, Option.bind_eq_bind, Option.bind_eq_some_iff] at h
  obtain ⟨⟨ds', rest'⟩, hd, h⟩ := h
  split at h
  · cases h
  next hz =>
    cases h
    obtain ⟨hds, he⟩ := digits_of_digits? hd
    exact ⟨⟨hds, fun h0 => not_not.mp fun h1 => hz ⟨h0, h1⟩⟩, he⟩

theorem sign_nil (h : ∀ b ∈ bytes.head?, b ∉ marks) : sign marks bytes = ([], bytes) := by
  cases bytes with
  | nil => rfl
  | cons b bytes => rw [sign, if_neg (h b rfl)]

theorem sign_cons {b : UInt8} (h : b ∈ marks) : sign marks (b :: bytes) = ([b], bytes) := by
  rw [sign, if_pos h]

theorem sign_append (marks bytes : Bytes) :
    ((sign marks bytes).1 = [] ∨ ∃ b ∈ marks, (sign marks bytes).1 = [b]) ∧
      bytes = (sign marks bytes).1 ++ (sign marks bytes).2 := by
  cases bytes with
  | nil => exact ⟨.inl rfl, rfl⟩
  | cons b bytes =>
    rw [sign]
    split
    next hm => exact ⟨.inr ⟨b, hm, rfl⟩, rfl⟩
    · exact ⟨.inl rfl, rfl⟩

theorem fraction?_append (h : Fraction part) (hr : NoDigit rest)
    (hp : ∀ b ∈ rest.head?, b ≠ 0x2e) : fraction? (part ++ rest) = some (part, rest) := by
  cases h with
  | absent =>
    cases rest with
    | nil => rfl
    | cons b rest => rw [List.nil_append, fraction?, if_neg (hp b rfl)]
  | point hd => rw [List.cons_append, fraction?, if_pos rfl, digits?_append hd hr]; rfl

theorem fraction_of_fraction? (h : fraction? bytes = some (part, rest)) :
    Fraction part ∧ bytes = part ++ rest := by
  cases bytes with
  | nil =>
    cases h
    exact ⟨.absent, rfl⟩
  | cons b bytes =>
    rw [fraction?] at h
    split at h
    next hb =>
      obtain ⟨⟨ds, rest⟩, hd, he⟩ := Option.map_eq_some_iff.mp h
      cases he
      obtain ⟨hds, rfl⟩ := digits_of_digits? hd
      exact ⟨hb ▸ .point hds, rfl⟩
    · cases h
      exact ⟨.absent, rfl⟩

theorem exponent?_append (h : Exponent power) (hr : Stops rest) :
    exponent? (power ++ rest) = some (power, rest) := by
  cases h with
  | absent =>
    cases rest with
    | nil => rfl
    | cons b rest =>
      have hb := hr.2 b rfl
      rw [List.nil_append, exponent?, if_neg (not_or.mpr hb.2)]
  | @letter b mark ds hb hm hd =>
    have hsign : sign [0x2b, 0x2d] (mark ++ (ds ++ rest)) = (mark, ds ++ rest) := by
      rcases hm with rfl | rfl | rfl
      · obtain ⟨d, ds, rfl, hdigit⟩ := hd.exists_cons
        refine sign_nil ?_
        rintro _ ⟨⟩ hmem
        rcases List.mem_pair.mp hmem with rfl | rfl <;> cases hdigit
      · exact sign_cons (by simp)
      · exact sign_cons (by simp)
    rw [List.cons_append, List.cons_append, exponent?, if_pos hb, List.append_assoc, hsign]
    simp only [digits?_append hd hr.1, Option.bind_eq_bind, Option.bind_some]
    rfl

theorem exponent_of_exponent? (h : exponent? bytes = some (power, rest)) :
    Exponent power ∧ bytes = power ++ rest := by
  cases bytes with
  | nil =>
    cases h
    exact ⟨.absent, rfl⟩
  | cons b bytes =>
    rw [exponent?] at h
    split at h
    next hb =>
      simp only [Option.bind_eq_bind, Option.bind_eq_some_iff] at h
      obtain ⟨⟨ds, rest⟩, hd, he⟩ := h
      cases he
      obtain ⟨hds, he⟩ := digits_of_digits? hd
      obtain ⟨hm, hbytes⟩ := sign_append [0x2b, 0x2d] bytes
      refine ⟨.letter hb (by simpa using hm) hds, ?_⟩
      rw [he, ← List.append_assoc] at hbytes
      exact congrArg (b :: ·) hbytes
    · cases h
      exact ⟨.absent, rfl⟩

theorem Written.ne_nil (h : Written bytes) : bytes ≠ [] := by
  obtain ⟨minus, whole, part, power, -, hw, -, -, rfl⟩ := h
  simp [hw.1.1]

theorem lex_of_written (h : Written front) (hr : Stops rest) :
    lex (front ++ rest) = some (front.map (Char.ofNat ·.toNat), rest) := by
  obtain ⟨minus, whole, part, power, hm, hw, hf, he, rfl⟩ := h
  have hpower : NoDigit (power ++ rest) ∧ ∀ b ∈ (power ++ rest).head?, b ≠ 0x2e := by
    cases he with
    | absent => exact ⟨hr.1, fun b hb => (hr.2 b hb).1⟩
    | letter hb _ _ =>
      rcases hb with rfl | rfl
      · exact ⟨noDigit_cons rfl, by rintro _ ⟨⟩; decide⟩
      · exact ⟨noDigit_cons rfl, by rintro _ ⟨⟩; decide⟩
  have hpart : NoDigit (part ++ (power ++ rest)) := by
    cases hf with
    | absent => exact hpower.1
    | point _ => exact noDigit_cons rfl
  have hsign : sign [0x2d] (minus ++ (whole ++ (part ++ (power ++ rest)))) =
      (minus, whole ++ (part ++ (power ++ rest))) := by
    rcases hm with rfl | rfl
    · obtain ⟨d, ds, rfl, hdigit⟩ := hw.1.exists_cons
      refine sign_nil ?_
      rintro _ ⟨⟩ hmem
      cases List.mem_singleton.mp hmem
      cases hdigit
    · exact sign_cons (by simp)
  simp only [List.append_assoc, lex, hsign, integer?_append hw hpart,
    fraction?_append hf hpower.1 hpower.2, exponent?_append he hr, Option.bind_eq_bind,
    Option.bind_some]
  rfl

theorem exists_written_of_lex (h : lex bytes = some (s, rest)) :
    ∃ front, Written front ∧ s = front.map (Char.ofNat ·.toNat) ∧ bytes = front ++ rest := by
  simp only [lex, Option.bind_eq_bind, Option.bind_eq_some_iff] at h
  obtain ⟨⟨whole, r₁⟩, h₁, ⟨part, r₂⟩, h₂, ⟨power, r₃⟩, h₃, h⟩ := h
  cases h
  obtain ⟨hm, hbytes⟩ := sign_append [0x2d] bytes
  obtain ⟨hw, he₁⟩ := whole_of_integer? h₁
  obtain ⟨hf, he₂⟩ := fraction_of_fraction? h₂
  obtain ⟨hp, he₃⟩ := exponent_of_exponent? h₃
  refine ⟨_, ⟨_, whole, part, power, by simpa using hm, hw, hf, hp, rfl⟩, rfl, ?_⟩
  calc bytes = (sign [0x2d] bytes).1 ++ (whole ++ (part ++ (power ++ r₃))) := by
        rw [← he₃, ← he₂, ← he₁, ← hbytes]
    _ = _ := by simp only [List.append_assoc]

end Number

end Json

end ComponentIdentity
