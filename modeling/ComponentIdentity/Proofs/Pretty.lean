import ComponentIdentity.Json.Pretty
import ComponentIdentity.Proofs.Writable

/-! # JSON that is laid out

What is laid out over lines is a JSON text, and of the very value: its texts are
spelled with no other escapes than they need, its numbers by their digits, and
between the tokens are only blanks.
-/

namespace ComponentIdentity

namespace Bytes

theorem ofText_append (s t : String) : ofText (s ++ t) = ofText s ++ ofText t := by
  rw [ofText_eq_flatMap, ofText_eq_flatMap, ofText_eq_flatMap, String.toList_append,
    List.flatMap_append]

theorem ofText_ofList (cs : List Char) :
    ofText (String.ofList cs) = cs.flatMap String.utf8EncodeChar := by
  rw [ofText_eq_flatMap, String.toList_ofList]

theorem flatMap_intercalate {α β : Type} {f : α → List β} {sep : List α} {xss : List (List α)} :
    (sep.intercalate xss).flatMap f = (sep.flatMap f).intercalate (xss.map (List.flatMap f)) := by
  induction xss with
  | nil => rfl
  | cons xs xss ih =>
    cases xss with
    | nil => simp
    | cons ys xss =>
      simp only [List.map_cons] at ih ⊢
      rw [List.intercalate_cons_cons, List.intercalate_cons_cons, ← ih, List.flatMap_append,
        List.flatMap_append]

theorem ofText_intercalate (sep : String) (items : List String) :
    ofText (sep.intercalate items) = (ofText sep).intercalate (items.map ofText) := by
  rw [ofText_eq_flatMap, String.toList_intercalate, flatMap_intercalate, List.map_map,
    ofText_eq_flatMap]
  exact congrArg _ (List.map_congr_left fun s _ => (ofText_eq_flatMap s).symm)

end Bytes

namespace Json

namespace Spelling

variable {c : Char} {cs : List Char} {b : UInt8} {s s' : Spelling} {front back : Bytes}

/-- How a character is spelled when it is written: a control character that has no letter by its
number, any other by its bytes. -/
def ofChar (c : Char) : Spelling :=
  if shortLetters.lookup c = none ∧ c.toNat < 0x20 then [.unit c.toNat]
  else (String.utf8EncodeChar c).map .byte

def ofText (text : String) : Spelling := text.toList.flatMap ofChar

theorem spells_ofText (text : String) : Spells text (ofText text) := by
  unfold Spells ofText
  induction text.toList with
  | nil => exact .nil
  | cons c cs ih =>
    refine .cons ?_ ih
    unfold ofChar
    split
    · exact .unit
    · exact .bytes

theorem Written.append (h : Written s front) (h' : Written s' back) :
    Written (s ++ s') (front ++ back) := by
  induction h with
  | nil => exact h'
  | cons hp _ ih =>
    rw [List.append_assoc]
    exact .cons hp ih

theorem written_short {letter : Char} (h : (c, letter) ∈ shortLetters) :
    Written ((String.utf8EncodeChar c).map .byte)
      (['\\', letter].flatMap String.utf8EncodeChar) := by
  have hall : ∀ e ∈ shortLetters, (Number.byteOf e.2, Number.byteOf e.1) ∈ shortEscapes ∧
      String.utf8EncodeChar e.1 = [Number.byteOf e.1] ∧
      ['\\', e.2].flatMap String.utf8EncodeChar = [backslash, Number.byteOf e.2] := by decide
  obtain ⟨hm, hc, hl⟩ := hall _ h
  rw [hc, hl]
  exact .cons (.short hm) .nil

theorem written_hexDigit {n : Nat} (hn : n < 16) :
    ∃ b, HexDigit n b ∧ String.utf8EncodeChar (Bytes.hexDigit n) = [b] := by
  have hall : ∀ n < 16, hexValue? (Number.byteOf (Bytes.hexDigit n)) = some n ∧
      String.utf8EncodeChar (Bytes.hexDigit n) = [Number.byteOf (Bytes.hexDigit n)] := by decide
  obtain ⟨hv, hb⟩ := hall n hn
  exact ⟨_, hexValue?_eq_some_iff.mp hv, hb⟩

theorem written_escapeUnit (hc : c.toNat < 0x20) :
    Written [.unit c.toNat] ((escapeUnit c).flatMap String.utf8EncodeChar) := by
  have hsize : c.toNat.toUInt8.toNat = c.toNat := UInt8.toNat_ofNat_of_lt' (by
    exact Nat.lt_trans hc (by decide))
  obtain ⟨h₃, hd₃, he₃⟩ := written_hexDigit (n := c.toNat / 16) (by omega)
  obtain ⟨h₄, hd₄, he₄⟩ := written_hexDigit (n := c.toNat % 16) (by omega)
  have hz : HexDigit 0 0x30 := hexValue?_eq_some_iff.mp rfl
  have hw := WrittenPiece.unit hz hz hd₃ hd₄
  have hn : ((0 * 16 + 0) * 16 + c.toNat / 16) * 16 + c.toNat % 16 = c.toNat := by omega
  rw [hn] at hw
  have hbytes : (escapeUnit c).flatMap String.utf8EncodeChar =
      [backslash, letterU, 0x30, 0x30, h₃, h₄] := by
    have hfront : ['\\', 'u', '0', '0'].flatMap String.utf8EncodeChar =
        [backslash, letterU, 0x30, 0x30] := by decide
    rw [escapeUnit, Bytes.hexByte, hsize, List.flatMap_append, hfront]
    simp [he₃, he₄]
  rw [hbytes]
  exact .cons hw .nil

theorem toNat_of_mem_utf8EncodeChar (h : b ∈ String.utf8EncodeChar c) :
    b.toNat = c.toNat ∨ 128 ≤ b.toNat := by
  have hc : c.val.toNat = c.toNat := rfl
  have hlow : ∀ n < 256, (UInt8.ofNat n).toNat = n := fun n hn => UInt8.toNat_ofNat_of_lt' hn
  unfold String.utf8EncodeChar at h
  rw [hc] at h
  dsimp only at h
  split_ifs at h with h₁ h₂ h₃
  all_goals simp only [List.mem_cons, List.not_mem_nil, or_false] at h
  · rw [h, hlow _ (by omega)]
    exact .inl rfl
  · rcases h with rfl | rfl
    all_goals rw [hlow _ (by omega)]; omega
  · rcases h with rfl | rfl | rfl
    all_goals rw [hlow _ (by omega)]; omega
  · rcases h with rfl | rfl | rfl | rfl
    all_goals rw [hlow _ (by omega)]; omega

theorem written_bytes {bytes : Bytes} (h : ∀ b ∈ bytes, 0x20 ≤ b ∧ b ≠ quote ∧ b ≠ backslash) :
    Written (bytes.map .byte) bytes := by
  induction bytes with
  | nil => exact .nil
  | cons b bytes ih =>
    obtain ⟨⟨hl, hq, hb⟩, h⟩ := List.forall_mem_cons.mp h
    exact .cons (.plain hl hq hb) (ih h)

theorem written_utf8 (hc : 0x20 ≤ c.toNat) (hq : c ≠ '"') (hb : c ≠ '\\') :
    Written ((String.utf8EncodeChar c).map .byte) (String.utf8EncodeChar c) := by
  refine written_bytes fun b hm => ?_
  have hn := toNat_of_mem_utf8EncodeChar hm
  have hmark : ∀ d : Char, d.toNat < 128 → c ≠ d → b.toNat ≠ d.toNat := fun d hd hne he =>
    hne (Char.toNat_inj.mp (by omega))
  have hl : 0x20 ≤ b := by
    rw [UInt8.le_iff_toNat_le]
    exact hn.elim (fun he => he ▸ hc) (Nat.le_trans (by decide))
  refine ⟨hl, ?_, ?_⟩
  · rintro rfl
    exact hmark '"' (by decide) hq rfl
  · rintro rfl
    exact hmark '\\' (by decide) hb rfl

theorem written_ofChar (c : Char) :
    Written (ofChar c) ((escapeChar c).flatMap String.utf8EncodeChar) := by
  unfold ofChar escapeChar
  cases hl : shortLetters.lookup c with
  | some letter =>
    rw [if_neg (fun h => nomatch h.1)]
    exact written_short ((List.lookup_eq_some_iff_mem (by decide)).mp hl)
  | none =>
    by_cases hc : c.toNat < 0x20
    · rw [if_pos ⟨rfl, hc⟩]
      simp only [if_pos hc]
      exact written_escapeUnit hc
    · rw [if_neg (fun h => hc h.2)]
      simp only [if_neg hc, List.flatMap_singleton]
      refine written_utf8 (Nat.le_of_not_lt hc) ?_ ?_
      · rintro rfl
        cases hl
      · rintro rfl
        cases hl

theorem written_quoted (text : String) : ∃ bytes, Written (ofText text) bytes ∧
    Bytes.ofText (quoted text) = quote :: (bytes ++ [quote]) := by
  have hchars : ∀ cs : List Char, Written (cs.flatMap ofChar)
      ((cs.flatMap escapeChar).flatMap String.utf8EncodeChar) := by
    intro cs
    induction cs with
    | nil => exact .nil
    | cons c cs ih => simpa using (written_ofChar c).append ih
  refine ⟨_, hchars text.toList, ?_⟩
  have hquote : Bytes.ofText "\"" = [quote] := by decide +kernel
  rw [quoted, Bytes.ofText_append, Bytes.ofText_append, hquote, Bytes.ofText_ofList]
  rfl

end Spelling

namespace Token

variable {t u : Token} {ts us : List Token} {tss : List (List Token)} {bytes front back : Bytes}

theorem Laid.append (h : Laid ts front) (h' : Laid us back) : Laid (ts ++ us) (front ++ back) := by
  induction h with
  | nil => exact h'
  | blank hb _ ih => exact .blank hb ih
  | token hw _ ih =>
    rw [List.append_assoc]
    exact .token hw ih

theorem laid_singleton (h : t.Written bytes) : Laid [t] bytes := by
  simpa using Laid.token h .nil

theorem laid_mark {mark : String} (b : UInt8) (hm : (b, t) ∈ punctuation)
    (hb : Bytes.ofText mark = [b]) : Laid [t] (Bytes.ofText mark) :=
  hb ▸ laid_singleton (.mark hm)

theorem laid_blanks (h : ∀ b ∈ bytes, isBlank b = true) : Laid [] bytes := by
  induction bytes with
  | nil => exact .nil
  | cons b bytes ih =>
    obtain ⟨hb, h⟩ := List.forall_mem_cons.mp h
    exact .blank hb (ih h)

theorem laid_intercalate {sep : Bytes} {items : List Bytes} (hs : Laid [.comma] sep)
    (h : List.Forall₂ Laid tss items) :
    Laid ([.comma].intercalate tss) (sep.intercalate items) := by
  induction h with
  | nil => exact .nil
  | @cons ts item tss items hi hrest ih =>
    cases hrest with
    | nil => simpa using hi
    | cons _ _ =>
      rw [List.intercalate_cons_cons, List.intercalate_cons_cons]
      exact (hi.append hs).append ih

theorem laid_indent (level : Nat) : Laid [] (Bytes.ofText (indent level)) := by
  refine laid_blanks fun b hb => ?_
  rw [indent, Bytes.ofText_ofList] at hb
  obtain ⟨c, hc, hb⟩ := List.mem_flatMap.mp hb
  rw [List.eq_of_mem_replicate hc] at hb
  cases List.mem_singleton.mp hb
  rfl

theorem laid_newline : Laid [] (Bytes.ofText "\n") := by
  have hbytes : Bytes.ofText "\n" = [0x0a] := by decide +kernel
  exact hbytes ▸ laid_blanks (List.forall_mem_singleton.mpr rfl)

theorem laid_comma : Laid [.comma] (Bytes.ofText ",\n") := by
  have hbytes : Bytes.ofText ",\n" = [0x2c] ++ [0x0a] := by decide +kernel
  rw [hbytes]
  exact (laid_singleton (.mark (by decide))).append
    (laid_blanks (List.forall_mem_singleton.mpr rfl))

theorem laid_colon : Laid [.colon] (Bytes.ofText ": ") := by
  have hbytes : Bytes.ofText ": " = [0x3a] ++ [0x20] := by decide +kernel
  rw [hbytes]
  exact (laid_singleton (.mark (by decide))).append
    (laid_blanks (List.forall_mem_singleton.mpr rfl))

theorem laid_block {opening closing : String} {level : Nat} {items : List String}
    (ho : Laid [t] (Bytes.ofText opening)) (hc : Laid [u] (Bytes.ofText closing))
    (h : List.Forall₂ (fun ts item => Laid ts (Bytes.ofText item)) tss items) :
    Laid (t :: ([.comma].intercalate tss ++ [u]))
      (Bytes.ofText (block opening closing level items)) := by
  unfold block
  cases h with
  | nil =>
    rw [if_pos List.isEmpty_nil, Bytes.ofText_append]
    exact ho.append hc
  | @cons ts item tss items hi hrest =>
    have hindent : ∀ ts item, Laid ts (Bytes.ofText item) →
        Laid ts (Bytes.ofText (indent (level + 1) ++ item)) := by
      intro ts item hi
      rw [Bytes.ofText_append]
      exact (laid_indent _).append hi
    have hitems : List.Forall₂ Laid (ts :: tss)
        (((item :: items).map (indent (level + 1) ++ ·)).map Bytes.ofText) := by
      rw [List.map_map, List.forall₂_map_right_iff]
      exact .cons (hindent _ _ hi) (hrest.imp hindent)
    have hall := ((((ho.append laid_newline).append (laid_intercalate laid_comma hitems)).append
      laid_newline).append (laid_indent level)).append hc
    simp only [← Bytes.ofText_intercalate, ← Bytes.ofText_append, List.append_nil] at hall
    exact hall

end Token

mutual

/-- The value with its texts as they are spelled when it is written. -/
def spelled : Json String → Json Spelling
  | .null => .null
  | .bool b => .bool b
  | .number s => .number s
  | .text t => .text (Spelling.ofText t)
  | .array items => .array (spelledItems items)
  | .object members => .object (spelledMembers members)

def spelledItems : List (Json String) → List (Json Spelling)
  | [] => []
  | v :: rest => spelled v :: spelledItems rest

def spelledMembers : List (String × Json String) → List (Spelling × Json Spelling)
  | [] => []
  | (k, v) :: rest => (Spelling.ofText k, spelled v) :: spelledMembers rest

end

/-- However deep it stands, the value is laid out as a text of itself. -/
def Shown (v : Json String) : Prop :=
  ∀ level, v.spelled.Writes (Bytes.ofText (v.pretty level))

section Shown

variable {items : List (Json String)} {members : List (String × Json String)} {level : Nat}

theorem spelledItems_eq : spelledItems items = items.map spelled := by
  induction items with
  | nil => rfl
  | cons v items ih => rw [spelledItems, ih, List.map_cons]

theorem spelledMembers_eq :
    spelledMembers members = members.map fun m => (Spelling.ofText m.1, m.2.spelled) := by
  induction members with
  | nil => rfl
  | cons m members ih => rw [spelledMembers, ih, List.map_cons]

theorem prettyItems_eq : prettyItems level items = items.map (pretty level) := by
  induction items with
  | nil => rfl
  | cons v items ih => rw [prettyItems, ih, List.map_cons]

theorem prettyMembers_eq : prettyMembers level members =
    members.map fun m => quoted m.1 ++ ": " ++ m.2.pretty level := by
  induction members with
  | nil => rfl
  | cons m members ih => rw [prettyMembers, ih, List.map_cons]

theorem shown_null : Shown .null := fun _ => by
  have hword : (Bytes.ofText "null", Token.null) ∈ Token.words := by decide +kernel
  exact Token.laid_singleton (.word hword)

theorem shown_bool (b : Bool) : Shown (.bool b) := fun _ => by
  have hword : (Bytes.ofText (if b then "true" else "false"), Token.bool b) ∈ Token.words := by
    cases b <;> decide +kernel
  exact Token.laid_singleton (.word hword)

theorem shown_natural (n : Nat) : Shown (natural n) := fun level => by
  have hdigits : Bytes.ofText ((natural n).pretty level) =
      (Nat.toDigits 10 n).map Number.byteOf := by
    rw [natural, pretty, Bytes.ofText_ofList, List.map_eq_flatMap]
    refine List.flatMap_congr fun c hc => ?_
    have hr : c.val.toNat ≤ 57 := (Number.toNat_byteOf hc).2.2
    exact if_pos (Nat.le_trans hr (by decide))
  rw [hdigits]
  exact Token.laid_singleton (Token.written_toDigits n)

theorem laid_quoted (text : String) :
    Token.Laid [.text (Spelling.ofText text)] (Bytes.ofText (quoted text)) := by
  obtain ⟨bytes, hw, he⟩ := Spelling.written_quoted text
  exact he ▸ Token.laid_singleton (.text hw)

theorem shown_text (text : String) : Shown (.text text) := fun _ => laid_quoted text

theorem shown_array (h : ∀ v ∈ items, v.Shown) : Shown (.array items) := by
  intro level
  rw [spelled, Writes, tokens, itemTokens_eq, spelledItems_eq, pretty, prettyItems_eq, List.map_map]
  refine Token.laid_block (Token.laid_mark 0x5b (by decide) (by decide +kernel))
    (Token.laid_mark 0x5d (by decide) (by decide +kernel)) ?_
  rw [List.forall₂_map_left_iff, List.forall₂_map_right_iff, List.forall₂_same]
  exact fun v hv => h v hv (level + 1)

theorem shown_object (h : ∀ m ∈ members, m.2.Shown) : Shown (.object members) := by
  intro level
  rw [spelled, Writes, tokens, memberTokens_eq, spelledMembers_eq, pretty, prettyMembers_eq,
    List.map_map]
  refine Token.laid_block (Token.laid_mark 0x7b (by decide) (by decide +kernel))
    (Token.laid_mark 0x7d (by decide) (by decide +kernel)) ?_
  rw [List.forall₂_map_left_iff, List.forall₂_map_right_iff, List.forall₂_same]
  intro m hm
  rw [Bytes.ofText_append, Bytes.ofText_append]
  exact ((laid_quoted m.1).append Token.laid_colon).append (h m hm (level + 1))

theorem record_spelled (members : List (String × Json String)) :
    Record (members.map fun m => (m.1, some m.2.spelled)) (Json.object members).spelled := by
  have hpresent : present (members.map fun m => (m.1, some m.2.spelled)) =
      members.map fun m => (m.1, m.2.spelled) := by
    rw [present, List.filterMap_map]
    exact congrFun List.filterMap_eq_map members
  refine ⟨_, members.map fun m => (m.1, m.2.spelled), [], rfl, ?_, ?_, nofun⟩
  · rw [spelledMembers_eq, List.forall₂_map_left_iff, List.forall₂_map_right_iff, List.forall₂_same]
    exact fun m _ => ⟨Spelling.spells_ofText m.1, rfl⟩
  · rw [hpresent, List.append_nil]

end Shown

end Json

end ComponentIdentity
