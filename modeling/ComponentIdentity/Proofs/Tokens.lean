import Mathlib.Data.List.Chain
import ComponentIdentity.Proofs.Lexemes

/-! # Tokens

A token is one of six marks or three words, a number or a text. The lexer finds in
a JSON text the tokens that it is written with, whatever blanks stand around them.
Only a number could run into the next token, and only if that is a number too.
-/

namespace ComponentIdentity

namespace Json

namespace Token

variable {b : UInt8} {t : Token} {ts seen tokens : List Token} {bytes front rest : Bytes}

inductive Written : Token → Bytes → Prop where
  | mark {b : UInt8} {t : Token} : (b, t) ∈ punctuation → Written t [b]
  | word {bytes : Bytes} {t : Token} : (bytes, t) ∈ words → Written t bytes
  | number {bytes : Bytes} : Number.Written bytes →
      Written (.number (bytes.map (Char.ofNat ·.toNat))) bytes
  | text {s : Spelling} {bytes : Bytes} : Spelling.Written s bytes →
      Written (.text s) (Spelling.quote :: (bytes ++ [Spelling.quote]))

/-- The tokens one after the other, with any blanks before, between and behind them. -/
inductive Laid : List Token → Bytes → Prop where
  | nil : Laid [] []
  | blank {b : UInt8} {ts : List Token} {bytes : Bytes} : isBlank b = true → Laid ts bytes →
      Laid ts (b :: bytes)
  | token {t : Token} {ts : List Token} {front back : Bytes} : Written t front → Laid ts back →
      Laid (t :: ts) (front ++ back)

def isNumber : Token → Bool
  | number _ => true
  | _ => false

/-- No number stands next to another one. -/
def Apart (ts : List Token) : Prop :=
  ts.IsChain fun t u => t.isNumber = true → u.isNumber = false

/-- A byte that a number may begin with. -/
def OpensNumber (b : UInt8) : Prop := b = 0x2d ∨ Number.isDigit b = true

instance : DecidablePred OpensNumber := fun b =>
  inferInstanceAs (Decidable (b = 0x2d ∨ Number.isDigit b = true))

/-- A byte with which neither a mark nor a text nor a word begins. -/
def OpensNoOther (b : UInt8) : Prop :=
  punctuation.lookup b = none ∧ b ≠ Spelling.quote ∧ ∀ w ∈ words, w.1.head? ≠ some b

instance : DecidablePred OpensNoOther := fun b =>
  inferInstanceAs (Decidable (punctuation.lookup b = none ∧ b ≠ Spelling.quote ∧
    ∀ w ∈ words, w.1.head? ≠ some b))

theorem exists_cons_of_mem_words {w : Bytes × Token} (hm : w ∈ words) :
    ∃ b bytes, w.1 = b :: bytes := by
  have hne : ∀ w ∈ words, w.1 ≠ [] := by decide
  exact List.exists_cons_of_ne_nil (hne w hm)

theorem OpensNoOther.lexOne_eq (h : OpensNoOther b) :
    lexOne b rest = (Number.lex (b :: rest)).map fun (s, rest) => (number s, rest) := by
  obtain ⟨hp, hq, hw⟩ := h
  have hfind : words.find? (fun w => w.1.isPrefixOf (b :: rest)) = none := by
    rw [List.find?_eq_none]
    intro w hm hpre
    obtain ⟨c, word, hword⟩ := exists_cons_of_mem_words hm
    rw [hword, List.isPrefixOf_cons_cons, Bool.and_eq_true, beq_iff_eq] at hpre
    exact hw w hm (by rw [hword, hpre.1]; rfl)
  simp only [lexOne, hp, if_neg hq, hfind]

theorem lookup_punctuation_iff : punctuation.lookup b = some t ↔ (b, t) ∈ punctuation :=
  List.lookup_eq_some_iff_mem (by decide)

theorem OpensNumber.opensNoOther (h : OpensNumber b) : OpensNoOther b := by
  have hp : ∀ e ∈ punctuation, ¬ OpensNumber e.1 := by decide
  have hw : ∀ w ∈ words, ∀ c ∈ w.1.head?, ¬ OpensNumber c := by
    simp only [words, List.forall_mem_cons, List.head?_cons, Option.mem_some_iff, forall_eq']
    decide
  refine ⟨?_, ?_, fun w hm hc => hw w hm b hc h⟩
  · rw [Option.eq_none_iff_forall_ne_some]
    exact fun t ht => hp _ (lookup_punctuation_iff.mp ht) h
  · rintro rfl
    exact absurd h (by decide)

theorem opensNumber_of_written (h : Number.Written (b :: front)) : OpensNumber b := by
  obtain ⟨minus, whole, part, power, hm, hw, -, -, he⟩ := h
  rcases hm with rfl | rfl
  · obtain ⟨d, ds, rfl, hd⟩ := hw.1.exists_cons
    cases he
    exact .inr hd
  · cases he
    exact .inl rfl

theorem lexOne_of_written (h : t.Written (b :: front))
    (hr : t.isNumber = true → Number.Stops rest) : lexOne b (front ++ rest) = some (t, rest) := by
  cases h with
  | mark hm =>
    simp only [lexOne, lookup_punctuation_iff.mpr hm]
    rfl
  | word hm =>
    simp only [words, List.mem_cons, Prod.mk.injEq, List.not_mem_nil, or_false] at hm
    rcases hm with ⟨hw, rfl⟩ | ⟨hw, rfl⟩ | ⟨hw, rfl⟩ <;> cases hw <;> rfl
  | number hn =>
    rw [(opensNumber_of_written hn).opensNoOther.lexOne_eq, ← List.cons_append,
      Number.lex_of_written hn (hr rfl)]
    rfl
  | text hs =>
    have hp : punctuation.lookup Spelling.quote = none := by decide
    simp only [lexOne, hp, ↓reduceIte, List.append_assoc, List.singleton_append,
      Spelling.lex_of_written hs]
    rfl

theorem written_of_lexOne (h : lexOne b bytes = some (t, rest)) :
    ∃ front, t.Written (b :: front) ∧ bytes = front ++ rest := by
  simp only [lexOne] at h
  split at h
  next hl =>
    cases h
    exact ⟨[], .mark (lookup_punctuation_iff.mp hl), rfl⟩
  split at h
  next hq =>
    obtain ⟨⟨s, rest⟩, hs, he⟩ := Option.map_eq_some_iff.mp h
    cases he
    obtain ⟨front, hw, rfl⟩ := Spelling.lex_eq_some_iff.mp hs
    exact ⟨front ++ [Spelling.quote], hq ▸ .text hw, by simp⟩
  split at h
  next w hf =>
    cases h
    have hm := List.mem_of_find?_eq_some hf
    have hp := List.find?_some hf
    obtain ⟨tail, ht⟩ := List.isPrefixOf_iff_prefix.mp hp
    obtain ⟨c, word, hword⟩ := exists_cons_of_mem_words hm
    rw [hword, List.cons_append] at ht
    cases ht
    refine ⟨word, .word (hword ▸ hm), ?_⟩
    rw [hword]
    simp
  · obtain ⟨⟨s, rest⟩, hs, he⟩ := Option.map_eq_some_iff.mp h
    cases he
    obtain ⟨front, hw, rfl, hbytes⟩ := Number.exists_written_of_lex hs
    obtain ⟨c, front, rfl⟩ := List.exists_cons_of_ne_nil hw.ne_nil
    cases hbytes
    exact ⟨front, .number hw, rfl⟩

theorem Written.exists_cons (h : t.Written front) :
    ∃ b bytes, front = b :: bytes ∧ isBlank b = false := by
  cases h with
  | @mark b _ hm =>
    have hall : ∀ e ∈ punctuation, isBlank e.1 = false := by decide
    exact ⟨b, [], rfl, hall _ hm⟩
  | word hm =>
    have hall : ∀ w ∈ words, ∃ b ∈ w.1.head?, isBlank b = false := by decide
    obtain ⟨b, hb, hblank⟩ := hall _ hm
    exact ⟨b, _, List.eq_cons_of_mem_head? hb, hblank⟩
  | number hn =>
    obtain ⟨b, bytes, rfl⟩ := List.exists_cons_of_ne_nil hn.ne_nil
    refine ⟨b, bytes, rfl, Bool.eq_false_iff.mpr fun hblank => ?_⟩
    simp only [isBlank, Bool.or_eq_true, beq_iff_eq] at hblank
    have ho := opensNumber_of_written hn
    rcases hblank with ((rfl | rfl) | rfl) | rfl <;> exact absurd ho (by decide)
  | text _ => exact ⟨_, _, rfl, rfl⟩

theorem Written.stops (h : t.Written front) (hn : t.isNumber = false) :
    Number.Stops (front ++ rest) := by
  obtain ⟨b, bytes, rfl, -⟩ := h.exists_cons
  refine Number.stops_cons ?_
  cases h with
  | mark hm =>
    have hall : ∀ e ∈ punctuation, Number.isDigit e.1 = false ∧ e.1 ≠ 0x2e ∧ e.1 ≠ 0x65 ∧
      e.1 ≠ 0x45 := by decide
    exact hall _ hm
  | word hm =>
    have hall : ∀ w ∈ words, ∀ b ∈ w.1.head?, Number.isDigit b = false ∧ b ≠ 0x2e ∧ b ≠ 0x65 ∧
        b ≠ 0x45 := by
      simp only [words, List.forall_mem_cons, List.head?_cons, Option.mem_some_iff, forall_eq']
      decide
    exact hall _ hm b rfl
  | number _ => cases hn
  | text _ => decide

theorem Laid.stops (h : Laid ts bytes) (hn : ∀ u ∈ ts.head?, u.isNumber = false) :
    Number.Stops bytes := by
  cases h with
  | nil => exact ⟨nofun, nofun⟩
  | @blank b _ _ hb _ =>
    simp only [isBlank, Bool.or_eq_true, beq_iff_eq] at hb
    refine Number.stops_cons ?_
    rcases hb with ((rfl | rfl) | rfl) | rfl <;> decide
  | token hw _ => exact hw.stops (hn _ rfl)

theorem lexFrom_of_laid (h : Laid ts bytes) (ha : Apart ts) :
    lexFrom seen bytes = some (seen.reverse ++ ts) := by
  induction h generalizing seen with
  | nil => rw [lexFrom, List.append_nil]
  | blank hb _ ih => rw [lexFrom, if_pos hb, ih ha]
  | @token t ts front back hw hl ih =>
    obtain ⟨hnext, ha⟩ := List.isChain_cons.mp ha
    obtain ⟨b, bytes, rfl, hb⟩ := hw.exists_cons
    have hstops : t.isNumber = true → Number.Stops back := fun hn =>
      hl.stops fun u hu => hnext u hu hn
    have hone := lexOne_of_written hw hstops
    rw [List.cons_append, lexFrom, if_neg (by simp [hb])]
    split
    next hnone => cases hnone.symm.trans hone
    next hsome =>
      cases hsome.symm.trans hone
      rw [ih ha, List.reverse_cons, List.append_assoc]
      rfl

theorem exists_laid_of_lexFrom (h : lexFrom seen bytes = some tokens) :
    ∃ ts, tokens = seen.reverse ++ ts ∧ Laid ts bytes := by
  fun_induction lexFrom seen bytes with
  | case1 seen =>
    cases h
    exact ⟨[], by simp, .nil⟩
  | case2 seen b bytes hb ih =>
    obtain ⟨ts, he, hl⟩ := ih h
    exact ⟨ts, he, .blank hb hl⟩
  | case3 => cases h
  | case4 seen b bytes _ t rest hone ih =>
    obtain ⟨ts, rfl, hl⟩ := ih h
    obtain ⟨front, hw, rfl⟩ := written_of_lexOne hone
    exact ⟨t :: ts, by simp, .token hw hl⟩

theorem laid_of_lex (h : lex bytes = some ts) : Laid ts bytes := by
  obtain ⟨ts, rfl, hl⟩ := exists_laid_of_lexFrom h
  exact hl

end Token

end Json

end ComponentIdentity
