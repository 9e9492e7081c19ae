import Mathlib.Data.List.Forall2
import Mathlib.Data.List.Perm.Basic
import ComponentIdentity.Proofs.Values

/-! # Texts and records in JSON

A character is spelled by its bytes, by its number or as a pair of surrogates, and
a text is spelled character by character. A record is an object that has each field
once, in any order, among members of other names; which spelling and which order is
chosen makes no difference to what is read.
-/

namespace ComponentIdentity

theorem List.mapM_eq_some_of_forall₂ {α β : Type} {f : α → Option β} {xs : List α} {ys : List β}
    (h : List.Forall₂ (fun x y => f x = some y) xs ys) : xs.mapM f = some ys := by
  induction h with
  | nil => rfl
  | cons hx _ ih => rw [List.mapM_cons, hx, ih]; rfl

theorem List.lookup_eq_head?_filter {α β : Type} [BEq α] [LawfulBEq α] {k : α}
    {l : List (α × β)} : l.lookup k = ((l.filter (·.1 == k)).head?).map (·.2) := by
  induction l with
  | nil => rfl
  | cons e l ih =>
    obtain ⟨a, b⟩ := e
    by_cases h : a = k
    · simp [h]
    · have hk : (k == a) = false := beq_eq_false_iff_ne.mpr (Ne.symm h)
      simp [List.lookup_cons, h, hk, ih]

namespace Json

namespace Spelling

variable {c : Char} {cs : List Char} {s front back spelling : Spelling} {done bytes : Bytes}
  {text : String}

/-- The ways to spell a character. -/
inductive SpellsChar (c : Char) : Spelling → Prop where
  | bytes : SpellsChar c ((String.utf8EncodeChar c).map .byte)
  | unit : SpellsChar c [.unit c.toNat]
  | pair {high low : Nat} : isHighSurrogate high = true → isLowSurrogate low = true →
      pair high low = c.toNat → SpellsChar c [.unit high, .unit low]

inductive SpellsChars : List Char → Spelling → Prop where
  | nil : SpellsChars [] []
  | cons {c : Char} {cs : List Char} {front back : Spelling} : SpellsChar c front →
      SpellsChars cs back → SpellsChars (c :: cs) (front ++ back)

def Spells (text : String) (spelling : Spelling) : Prop := SpellsChars text.toList spelling

def plain (text : String) : Spelling := (Bytes.ofText text).map .byte

theorem spellsChars_plain (cs : List Char) :
    SpellsChars cs ((cs.flatMap String.utf8EncodeChar).map .byte) := by
  induction cs with
  | nil => exact .nil
  | cons c cs ih =>
    rw [List.flatMap_cons, List.map_append]
    exact .cons .bytes ih

theorem spells_plain (text : String) : Spells text (plain text) := by
  rw [Spells, plain, Bytes.ofText_eq_flatMap]
  exact spellsChars_plain _

theorem not_surrogate_toNat :
    isHighSurrogate c.toNat = false ∧ isLowSurrogate c.toNat = false := by
  have hc : c.toNat < 0xd800 ∨ 0xdfff < c.toNat ∧ c.toNat < 0x110000 := c.valid
  simp only [isHighSurrogate, isLowSurrogate, decide_eq_false_iff_not]
  omega

theorem bytesFrom_bytes :
    bytesFrom done (bytes.map .byte ++ s) = bytesFrom (bytes.reverse ++ done) s := by
  induction bytes generalizing done with
  | nil => rfl
  | cons b bytes ih =>
    rw [List.map_cons, List.cons_append, bytesFrom, ih, List.reverse_cons, List.append_assoc]
    rfl

theorem bytesFrom_spellsChar (h : SpellsChar c front) :
    bytesFrom done (front ++ back) =
      bytesFrom ((String.utf8EncodeChar c).reverse ++ done) back := by
  cases h with
  | bytes => exact bytesFrom_bytes
  | unit =>
    obtain ⟨hh, hl⟩ := not_surrogate_toNat (c := c)
    rw [List.singleton_append, bytesFrom.eq_def]
    simp only [hh, hl, Bool.false_eq_true, ↓reduceIte, Char.ofNat_toNat]
  | pair hh hl hp =>
    rw [List.cons_append, List.singleton_append, bytesFrom, if_pos hh, if_pos hl, hp,
      Char.ofNat_toNat]

theorem bytesFrom_spellsChars (h : SpellsChars cs s) :
    bytesFrom done s = some (done.reverse ++ cs.flatMap String.utf8EncodeChar) := by
  induction h generalizing done with
  | nil => simp [bytesFrom]
  | cons hc _ ih => rw [bytesFrom_spellsChar hc, ih]; simp

theorem toText?_of_spells (h : Spells text spelling) : spelling.toText? = some text := by
  rw [toText?, bytesFrom_spellsChars h, List.reverse_nil, List.nil_append,
    ← Bytes.ofText_eq_flatMap, Option.bind_some, Bytes.toText?_ofText]

end Spelling

section Record

variable {v : Json Spelling} {fields : List (String × Option (Json Spelling))} {name : String}
  {value : Option (Json Spelling)}

/-- The members for the fields that have a value. -/
def present (fields : List (String × Option (Json Spelling))) : List (String × Json Spelling) :=
  fields.filterMap fun (name, value) => value.map (name, ·)

/-- An object of the present fields and of members with other names, in any order. -/
def Record (fields : List (String × Option (Json Spelling))) (v : Json Spelling) : Prop :=
  ∃ members named others, v = .object members ∧
    List.Forall₂ (fun m n => Spelling.Spells n.1 m.1 ∧ m.2 = n.2) members named ∧
    named.Perm (present fields ++ others) ∧ ∀ m ∈ others, m.1 ∉ fields.map (·.1)

theorem record_plain {named : List (String × Json Spelling)}
    (others : List (String × Json Spelling)) (hp : named.Perm (present fields ++ others))
    (ho : ∀ m ∈ others, m.1 ∉ fields.map (·.1)) :
    Record fields (.object (named.map fun m => (Spelling.plain m.1, m.2))) := by
  refine ⟨_, named, others, rfl, List.forall₂_map_left_iff.mpr ?_, hp, ho⟩
  exact List.forall₂_same.mpr fun m _ => ⟨Spelling.spells_plain m.1, rfl⟩

theorem present_cons :
    present ((name, value) :: fields) = (value.map (name, ·)).toList ++ present fields := by
  cases value <;> rfl

theorem mem_map_of_mem_present {m : String × Json Spelling} (hm : m ∈ present fields) :
    m.1 ∈ fields.map (·.1) := by
  obtain ⟨⟨a, value⟩, hf, he⟩ := List.mem_filterMap.mp hm
  obtain ⟨w, -, rfl⟩ := Option.map_eq_some_iff.mp he
  exact List.mem_map.mpr ⟨_, hf, rfl⟩

theorem filter_present (hn : (fields.map (·.1)).Nodup) (hm : (name, value) ∈ fields) :
    (present fields).filter (·.1 == name) = (value.map (name, ·)).toList := by
  induction fields with
  | nil => cases hm
  | cons field fields ih =>
    obtain ⟨a, b⟩ := field
    obtain ⟨ha, hn⟩ := List.nodup_cons.mp hn
    rw [present_cons, List.filter_append]
    rcases List.mem_cons.mp hm with he | hm
    · cases he
      have hrest : (present fields).filter (·.1 == name) = [] := by
        refine List.filter_eq_nil_iff.mpr fun m hp he => ha ?_
        exact eq_of_beq he ▸ mem_map_of_mem_present hp
      rw [hrest, List.append_nil]
      cases value <;> simp
    · have hne : a ≠ name := by
        rintro rfl
        exact ha (List.mem_map.mpr ⟨_, hm, rfl⟩)
      rw [ih hn hm]
      cases b <;> simp [hne]

/-- In any order of the members, a field stands once if it is present and else nowhere. -/
theorem filter_of_perm {named others : List (String × Json Spelling)}
    (hp : named.Perm (present fields ++ others)) (ho : ∀ m ∈ others, m.1 ∉ fields.map (·.1))
    (hn : (fields.map (·.1)).Nodup) (hm : (name, value) ∈ fields) :
    named.filter (·.1 == name) = (value.map (name, ·)).toList := by
  have hother : others.filter (·.1 == name) = [] := by
    refine List.filter_eq_nil_iff.mpr fun m hmem he => ho m hmem ?_
    exact List.mem_map.mpr ⟨_, hm, (eq_of_beq he).symm⟩
  have hperm := hp.filter (·.1 == name)
  rw [List.filter_append, hother, List.append_nil, filter_present hn hm] at hperm
  cases value with
  | none => exact List.perm_nil.mp hperm
  | some v => exact List.perm_singleton.mp hperm

/-- A record gives each of its fields the value it has, whatever else is in it. -/
theorem fields?_of_record (h : Record fields v) (hn : (fields.map (·.1)).Nodup) :
    v.fields? (fields.map (·.1)) = some (fields.map (·.2)) := by
  obtain ⟨members, named, others, rfl, hs, hp, ho⟩ := h
  have honce : ¬ ((fields.map (·.1)).any fun name => 1 < named.countP (·.1 == name)) := by
    intro hany
    obtain ⟨a, ha, hc⟩ := List.any_eq_true.mp hany
    obtain ⟨⟨name, value⟩, hm, rfl⟩ := List.mem_map.mp ha
    rw [List.countP_eq_length_filter, filter_of_perm hp ho hn hm] at hc
    cases value <;> simp at hc
  have hlookup : (fields.map (·.1)).map (fun name => named.lookup name) = fields.map (·.2) := by
    rw [List.map_map]
    refine List.map_congr_left ?_
    rintro ⟨name, value⟩ hm
    rw [Function.comp_apply, List.lookup_eq_head?_filter, filter_of_perm hp ho hn hm]
    cases value <;> rfl
  simp only [fields?, Option.bind_eq_bind]
  rw [List.mapM_eq_some_of_forall₂ (hs.imp ?_), Option.bind_some, if_neg honce, hlookup]
  · rfl
  · rintro ⟨s, v⟩ ⟨name, w⟩ ⟨hs, rfl⟩
    simp only [Spelling.toText?_of_spells hs, Option.map_some]

end Record

end Json

end ComponentIdentity
