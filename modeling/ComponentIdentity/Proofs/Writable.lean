import ComponentIdentity.Proofs.Records

/-! # Values that can be written

Any text can be written with escapes and any number by its digits, so values made of
them have texts, and so have records of such values.
-/

namespace ComponentIdentity

namespace Json

namespace Spelling

variable {c : Char} {n : Nat}

theorem exists_hexDigit (hn : n < 16) : ∃ b, HexDigit n b := by
  by_cases h : n < 10
  · have hb : 48 + n < 256 := by omega
    exact ⟨UInt8.ofNat (48 + n), .inl ⟨h, UInt8.toNat_ofNat_of_lt' hb⟩⟩
  · have hb : 55 + n < 256 := by omega
    exact ⟨UInt8.ofNat (55 + n), .inr ⟨by omega, hn, .inl (UInt8.toNat_ofNat_of_lt' hb)⟩⟩

theorem exists_writtenPiece_unit (hn : n < 0x10000) : ∃ bytes, WrittenPiece (.unit n) bytes := by
  obtain ⟨h₁, hd₁⟩ := exists_hexDigit (n := n / 4096) (by omega)
  obtain ⟨h₂, hd₂⟩ := exists_hexDigit (n := n / 256 % 16) (by omega)
  obtain ⟨h₃, hd₃⟩ := exists_hexDigit (n := n / 16 % 16) (by omega)
  obtain ⟨h₄, hd₄⟩ := exists_hexDigit (n := n % 16) (by omega)
  have he : ((n / 4096 * 16 + n / 256 % 16) * 16 + n / 16 % 16) * 16 + n % 16 = n := by omega
  have hw := WrittenPiece.unit hd₁ hd₂ hd₃ hd₄
  rw [he] at hw
  exact ⟨_, hw⟩

theorem isHighSurrogate_iff : isHighSurrogate n = true ↔ 0xd800 ≤ n ∧ n < 0xdc00 := by
  rw [isHighSurrogate, decide_eq_true_iff]

theorem isLowSurrogate_iff : isLowSurrogate n = true ↔ 0xdc00 ≤ n ∧ n < 0xe000 := by
  rw [isLowSurrogate, decide_eq_true_iff]

theorem exists_pair (hl : 0x10000 ≤ n) (hr : n < 0x110000) :
    ∃ high low, isHighSurrogate high = true ∧ isLowSurrogate low = true ∧ pair high low = n := by
  refine ⟨(n - 0x10000) / 0x400 + 0xd800, (n - 0x10000) % 0x400 + 0xdc00,
    isHighSurrogate_iff.mpr (by omega), isLowSurrogate_iff.mpr (by omega), ?_⟩
  unfold pair
  rw [Nat.add_sub_cancel, Nat.add_sub_cancel]
  omega

/-- A character is written by its number, or by two surrogates if that has more than 16 bits. -/
theorem exists_spellsChar (c : Char) :
    ∃ s, SpellsChar c s ∧ ∀ p ∈ s, ∃ bytes, WrittenPiece p bytes := by
  by_cases hn : c.toNat < 0x10000
  · exact ⟨_, .unit, by simpa using exists_writtenPiece_unit hn⟩
  · have hc : c.toNat < 0xd800 ∨ 0xdfff < c.toNat ∧ c.toNat < 0x110000 := c.valid
    obtain ⟨high, low, hh, hl, hp⟩ := exists_pair (n := c.toNat) (by omega) (by omega)
    have hhigh := isHighSurrogate_iff.mp hh
    have hlow := isLowSurrogate_iff.mp hl
    refine ⟨_, .pair hh hl hp, ?_⟩
    simp only [List.forall_mem_cons]
    exact ⟨exists_writtenPiece_unit (by omega), exists_writtenPiece_unit (by omega), nofun⟩

theorem exists_written {s : Spelling} (h : ∀ p ∈ s, ∃ bytes, WrittenPiece p bytes) :
    ∃ bytes, Written s bytes := by
  induction s with
  | nil => exact ⟨_, .nil⟩
  | cons p s ih =>
    obtain ⟨hp, hs⟩ := List.forall_mem_cons.mp h
    obtain ⟨front, hf⟩ := hp
    obtain ⟨back, hb⟩ := ih hs
    exact ⟨_, .cons hf hb⟩

theorem exists_spells (text : String) : ∃ s bytes, Spells text s ∧ Written s bytes := by
  have hchars : ∀ cs : List Char,
      ∃ s, SpellsChars cs s ∧ ∀ p ∈ s, ∃ bytes, WrittenPiece p bytes := by
    intro cs
    induction cs with
    | nil => exact ⟨[], .nil, nofun⟩
    | cons c cs ih =>
      obtain ⟨front, hf, hfw⟩ := exists_spellsChar c
      obtain ⟨back, hb, hbw⟩ := ih
      refine ⟨front ++ back, .cons hf hb, ?_⟩
      exact List.forall_mem_append.mpr ⟨hfw, hbw⟩
  obtain ⟨s, hs, hw⟩ := hchars text.toList
  obtain ⟨bytes, hb⟩ := exists_written hw
  exact ⟨s, bytes, hs, hb⟩

end Spelling

namespace Number

variable {n : Nat}

theorem head?_toDigits (hn : n ≠ 0) : (Nat.toDigits 10 n).head? ≠ some '0' := by
  induction n using Nat.strongRecOn with
  | ind n ih =>
    rw [Nat.toDigits_eq_if (by decide)]
    split
    next hl =>
      have hall : ∀ n < 10, n ≠ 0 → [n.digitChar].head? ≠ some '0' := by decide
      exact hall n hl hn
    · rw [List.head?_append_of_ne_nil _ Nat.toDigits_ne_nil]
      exact ih (n / 10) (by omega) (by omega)

def byteOf (c : Char) : UInt8 := UInt8.ofNat c.toNat

theorem toNat_byteOf {c : Char} (hc : c ∈ Nat.toDigits 10 n) :
    (byteOf c).toNat = c.toNat ∧ 48 ≤ c.toNat ∧ c.toNat ≤ 57 := by
  have hd : c.isDigit = true := Nat.isDigit_of_mem_toDigits (by decide) (by decide) hc
  have hr : 48 ≤ c.toNat ∧ c.toNat ≤ 57 := by
    simpa [Char.isDigit, UInt32.le_iff_toNat_le] using hd
  have hl : c.toNat < 256 := by omega
  exact ⟨UInt8.toNat_ofNat_of_lt' hl, hr⟩

theorem whole_toDigits (n : Nat) : Whole ((Nat.toDigits 10 n).map byteOf) := by
  refine ⟨⟨by simp [Nat.toDigits_ne_nil], ?_⟩, ?_⟩
  · simp only [List.forall_mem_map]
    intro c hc
    obtain ⟨he, hr⟩ := toNat_byteOf hc
    rw [isDigit, he]
    exact decide_eq_true hr
  · intro hz
    by_cases hn : n = 0
    · rw [hn, Nat.toDigits_zero]
      rfl
    · rw [List.head?_map, Option.map_eq_some_iff] at hz
      obtain ⟨c, hc, hb⟩ := hz
      have he := (toNat_byteOf (List.mem_of_mem_head? hc)).1
      rw [hb] at he
      have hzero : c = '0' := Char.toNat_inj.mp he.symm
      exact absurd (hzero ▸ hc) (head?_toDigits hn)

theorem written_toDigits (n : Nat) : Written ((Nat.toDigits 10 n).map byteOf) :=
  ⟨[], _, [], [], .inl rfl, whole_toDigits n, .absent, .absent, by simp⟩

theorem map_byteOf_toDigits (n : Nat) :
    ((Nat.toDigits 10 n).map byteOf).map (Char.ofNat ·.toNat) = Nat.toDigits 10 n := by
  rw [List.map_map]
  refine (List.map_congr_left fun c hc => ?_).trans (List.map_id _)
  rw [Function.comp_apply, (toNat_byteOf hc).1, Char.ofNat_toNat, id]

end Number

theorem Token.written_toDigits (n : Nat) :
    Written (.number (Nat.toDigits 10 n)) ((Nat.toDigits 10 n).map Number.byteOf) := by
  have h := Written.number (Number.written_toDigits n)
  rwa [Number.map_byteOf_toDigits] at h

section Writable

variable {v : Json Spelling} {s : Spelling} {bytes : Bytes} {items : List (Json Spelling)}
  {members : List (Spelling × Json Spelling)}

/-- Each token of the value can be written. -/
def Writable (v : Json Spelling) : Prop := ∀ t ∈ v.tokens, ∃ bytes, t.Written bytes

theorem Writable.exists_writes (h : v.Writable) : ∃ bytes, v.Writes bytes := by
  have hlaid : ∀ ts : List Token, (∀ t ∈ ts, ∃ bytes, t.Written bytes) →
      ∃ bytes, Token.Laid ts bytes := by
    intro ts
    induction ts with
    | nil => exact fun _ => ⟨[], .nil⟩
    | cons t ts ih =>
      intro h
      obtain ⟨⟨front, hf⟩, hts⟩ := List.forall_mem_cons.mp h
      obtain ⟨back, hb⟩ := ih hts
      exact ⟨front ++ back, .token hf hb⟩
  exact hlaid _ h

theorem forall_mem_intercalate {α : Type} {p : α → Prop} {sep : List α} {xss : List (List α)}
    (hs : ∀ x ∈ sep, p x) (h : ∀ xs ∈ xss, ∀ x ∈ xs, p x) : ∀ x ∈ sep.intercalate xss, p x := by
  induction xss with
  | nil => exact nofun
  | cons xs xss ih =>
    obtain ⟨hxs, hxss⟩ := List.forall_mem_cons.mp h
    cases xss with
    | nil => rwa [List.intercalate_singleton]
    | cons ys xss =>
      rw [List.intercalate_cons_cons]
      exact List.forall_mem_append.mpr ⟨List.forall_mem_append.mpr ⟨hxs, hs⟩, ih hxss⟩

theorem exists_written_mark {b : UInt8} {t : Token} (h : (b, t) ∈ Token.punctuation) :
    ∀ u ∈ [t], ∃ bytes, u.Written bytes :=
  List.forall_mem_singleton.mpr ⟨_, .mark h⟩

theorem writable_text (h : Spelling.Written s bytes) : (text s).Writable :=
  List.forall_mem_singleton.mpr ⟨_, .text h⟩

theorem writable_toDigits (n : Nat) : (number (Nat.toDigits 10 n) : Json Spelling).Writable :=
  List.forall_mem_singleton.mpr ⟨_, Token.written_toDigits n⟩

theorem writable_array (h : ∀ v ∈ items, v.Writable) : (array items).Writable := by
  have hitems : ∀ ts ∈ itemTokens items, ∀ t ∈ ts, ∃ bytes, t.Written bytes := by
    rw [itemTokens_eq]
    exact List.forall_mem_map.mpr h
  have hcomma := exists_written_mark (t := .comma) (b := 0x2c) (by decide)
  have hclose := exists_written_mark (t := .closeBracket) (b := 0x5d) (by decide)
  rw [Writable, tokens]
  refine List.forall_mem_cons.mpr ⟨⟨[0x5b], .mark (by decide)⟩, ?_⟩
  exact List.forall_mem_append.mpr ⟨forall_mem_intercalate hcomma hitems, hclose⟩

theorem writable_object
    (h : ∀ m ∈ members, (∃ bytes, Spelling.Written m.1 bytes) ∧ m.2.Writable) :
    (object members).Writable := by
  have hmembers : ∀ ts ∈ memberTokens members, ∀ t ∈ ts, ∃ bytes, t.Written bytes := by
    rw [memberTokens_eq]
    refine List.forall_mem_map.mpr fun m hm => ?_
    obtain ⟨⟨bytes, hk⟩, hv⟩ := h m hm
    simp only [List.forall_mem_cons]
    exact ⟨⟨_, .text hk⟩, ⟨[0x3a], .mark (by decide)⟩, hv⟩
  have hcomma := exists_written_mark (t := .comma) (b := 0x2c) (by decide)
  have hclose := exists_written_mark (t := .closeBrace) (b := 0x7d) (by decide)
  rw [Writable, tokens]
  refine List.forall_mem_cons.mpr ⟨⟨[0x7b], .mark (by decide)⟩, ?_⟩
  exact List.forall_mem_append.mpr ⟨forall_mem_intercalate hcomma hmembers, hclose⟩

end Writable

theorem exists_forall₂ {α β : Type} {related : α → β → Prop} {p : β → Prop} {as : List α}
    (h : ∀ a ∈ as, ∃ b, related a b ∧ p b) :
    ∃ bs, List.Forall₂ related as bs ∧ ∀ b ∈ bs, p b := by
  induction as with
  | nil => exact ⟨[], .nil, nofun⟩
  | cons a as ih =>
    obtain ⟨⟨b, hr, hp⟩, has⟩ := List.forall_mem_cons.mp h
    obtain ⟨bs, hrs, hps⟩ := ih has
    exact ⟨b :: bs, .cons hr hrs, List.forall_mem_cons.mpr ⟨hp, hps⟩⟩

theorem exists_record (fields : List (String × Option (Json Spelling)))
    (h : ∀ field ∈ fields, ∀ v ∈ field.2, v.Writable) : ∃ v, Record fields v ∧ v.Writable := by
  have hpresent : ∀ m ∈ present fields, m.2.Writable := by
    intro m hm
    obtain ⟨field, hf, he⟩ := List.mem_filterMap.mp hm
    obtain ⟨v, hv, rfl⟩ := Option.map_eq_some_iff.mp he
    exact h field hf v hv
  have hmember : ∀ n ∈ present fields, ∃ m : Spelling × Json Spelling,
      (Spelling.Spells n.1 m.1 ∧ m.2 = n.2) ∧
        (∃ bytes, Spelling.Written m.1 bytes) ∧ m.2.Writable := by
    intro n hn
    obtain ⟨s, bytes, hs, hw⟩ := Spelling.exists_spells n.1
    exact ⟨(s, n.2), ⟨hs, rfl⟩, ⟨bytes, hw⟩, hpresent n hn⟩
  obtain ⟨members, hs, hw⟩ := exists_forall₂ hmember
  refine ⟨.object members, ⟨members, present fields, [], rfl, hs.flip, ?_, nofun⟩,
    writable_object hw⟩
  rw [List.append_nil]

end Json

end ComponentIdentity
