import Mathlib.Data.List.Basic
import ComponentIdentity.Json.Value
import ComponentIdentity.Proofs.Tokens

/-! # JSON values

A value is written with its tokens: those of its parts between the marks that
belong to it. The reader gives a value for exactly the texts that are written with
its tokens, however deep the arrays and objects are nested.
-/

namespace ComponentIdentity.Json

variable {v w : Json Spelling} {items : List (Json Spelling)} {k : Spelling}
  {members : List (Spelling × Json Spelling)} {stack : List Frame} {s s' : State}
  {t u : Token} {ts : List Token} {bytes : Bytes}

mutual

def tokens : Json Spelling → List Token
  | .null => [.null]
  | .bool b => [.bool b]
  | .number s => [.number s]
  | .text s => [.text s]
  | .array items => .openBracket :: ([.comma].intercalate (itemTokens items) ++ [.closeBracket])
  | .object members => .openBrace :: ([.comma].intercalate (memberTokens members) ++ [.closeBrace])

def itemTokens : List (Json Spelling) → List (List Token)
  | [] => []
  | v :: rest => v.tokens :: itemTokens rest

def memberTokens : List (Spelling × Json Spelling) → List (List Token)
  | [] => []
  | (k, v) :: rest => (.text k :: .colon :: v.tokens) :: memberTokens rest

end

theorem itemTokens_eq : itemTokens items = items.map tokens := by
  induction items with
  | nil => rfl
  | cons v items ih => rw [itemTokens, ih, List.map_cons]

theorem memberTokens_eq :
    memberTokens members = members.map fun m => .text m.1 :: .colon :: m.2.tokens := by
  induction members with
  | nil => rfl
  | cons m members ih => rw [memberTokens, ih, List.map_cons]

/-- The bytes are a text of the value. -/
def Writes (v : Json Spelling) (bytes : Bytes) : Prop := Token.Laid v.tokens bytes

section Complete

/-- From its tokens the reader gets the value, whatever is open around it. -/
def Runs (v : Json Spelling) : Prop :=
  ∀ stack ts, (v.tokens ++ ts).foldlM State.step (.value stack) =
    ts.foldlM State.step (.done v stack)

/-- The first token of an item does not close the array. -/
theorem foldlM_arrayStart :
    ([.comma].intercalate (itemTokens (v :: items)) ++ ts).foldlM State.step (.arrayStart stack) =
      ([.comma].intercalate (itemTokens (v :: items)) ++ ts).foldlM State.step
        (.value (.array [] :: stack)) := by
  cases items <;> cases v <;> rfl

theorem foldlM_items (h : ∀ w ∈ v :: items, w.Runs) (seen : List (Json Spelling)) :
    ([.comma].intercalate (itemTokens (v :: items)) ++ .closeBracket :: ts).foldlM State.step
        (.value (.array seen :: stack)) =
      ts.foldlM State.step (.done (.array (seen.reverse ++ v :: items)) stack) := by
  induction items generalizing v seen with
  | nil =>
    have hv := h v (by simp) (.array seen :: stack) (.closeBracket :: ts)
    rw [itemTokens, itemTokens, List.intercalate_singleton, hv, ← List.reverse_cons]
    rfl
  | cons w items ih =>
    have hv := h v (by simp) (.array seen :: stack)
    have hrest := ih (fun u hu => h u (List.mem_cons_of_mem v hu)) (v :: seen)
    rw [List.reverse_cons, List.append_assoc, List.singleton_append] at hrest
    rw [itemTokens, itemTokens, List.intercalate_cons_cons, List.append_assoc, List.append_assoc,
      hv, ← hrest]
    rfl

theorem foldlM_members (h : ∀ m ∈ (k, v) :: members, m.2.Runs)
    (before : List (Spelling × Json Spelling)) :
    ([.comma].intercalate (memberTokens ((k, v) :: members)) ++ .closeBrace :: ts).foldlM
        State.step (.key before stack) =
      ts.foldlM State.step (.done (.object (before.reverse ++ (k, v) :: members)) stack) := by
  induction members generalizing k v before with
  | nil =>
    have hv := h (k, v) (by simp) (.object before k :: stack) (.closeBrace :: ts)
    rw [memberTokens, memberTokens, List.intercalate_singleton, ← List.reverse_cons]
    exact hv
  | cons m members ih =>
    obtain ⟨l, w⟩ := m
    have hv := h (k, v) (by simp) (.object before k :: stack)
    have hrest := ih (fun u hu => h u (List.mem_cons_of_mem _ hu)) ((k, v) :: before)
    rw [List.reverse_cons, List.append_assoc, List.singleton_append] at hrest
    rw [memberTokens, memberTokens, List.intercalate_cons_cons, List.append_assoc,
      List.append_assoc, ← hrest]
    exact hv _

theorem foldlM_objectStart :
    ([.comma].intercalate (memberTokens ((k, v) :: members)) ++ ts).foldlM State.step
        (.objectStart stack) =
      ([.comma].intercalate (memberTokens ((k, v) :: members)) ++ ts).foldlM State.step
        (.key [] stack) := by
  cases members <;> rfl

theorem runs (v : Json Spelling) : v.Runs := by
  -- What the lemmas on contents ask for is had for the parts, which are smaller.
  intro stack ts
  match v with
  | .null => rfl
  | .bool b => rfl
  | .number s => rfl
  | .text s => rfl
  | .array [] => rfl
  | .array (v :: items) =>
    have hitems : ∀ w ∈ v :: items, w.Runs := fun w hw =>
      have := List.sizeOf_lt_of_mem hw
      runs w
    rw [tokens, List.cons_append, List.append_assoc]
    exact foldlM_arrayStart.trans (foldlM_items hitems [])
  | .object [] => rfl
  | .object ((k, v) :: members) =>
    have hmembers : ∀ m ∈ (k, v) :: members, m.2.Runs := fun (l, w) hm =>
      have := List.sizeOf_lt_of_mem hm
      runs w
    rw [tokens, List.cons_append, List.append_assoc]
    exact foldlM_objectStart.trans (foldlM_members hmembers [])
termination_by sizeOf v
decreasing_by
  · rw [Json.array.sizeOf_spec]
    omega
  · rw [Json.object.sizeOf_spec]
    rw [Prod.mk.sizeOf_spec] at this
    omega

theorem foldlM_tokens : v.tokens.foldlM State.step (.value []) = some (.done v []) := by
  have h := v.runs [] []
  rw [List.append_nil] at h
  exact h

end Complete

section Sound

theorem intercalate_concat {α : Type} {sep : List α} {xs : List (List α)} {ys : List α} :
    sep.intercalate (xs ++ [ys]) = xs.flatMap (· ++ sep) ++ ys := by
  induction xs with
  | nil => simp
  | cons x xs ih =>
    obtain ⟨y, rest, hy⟩ := List.exists_cons_of_ne_nil (List.append_ne_nil_of_right_ne_nil xs
      (List.cons_ne_nil ys []))
    rw [List.cons_append, hy, List.intercalate_cons_cons, ← hy, ih, List.flatMap_cons]
    simp

/-- The tokens of the items that are read, each with the comma behind it. -/
def seenItems (items : List (Json Spelling)) : List Token :=
  (itemTokens items.reverse).flatMap (· ++ [.comma])

def seenMembers (members : List (Spelling × Json Spelling)) : List Token :=
  (memberTokens members.reverse).flatMap (· ++ [.comma])

def Frame.tokens : Frame → List Token
  | .array items => .openBracket :: seenItems items
  | .object members k => .openBrace :: (seenMembers members ++ [.text k, .colon])

def stackTokens (stack : List Frame) : List Token := stack.reverse.flatMap Frame.tokens

def State.tokens : State → List Token
  | value stack => stackTokens stack
  | arrayStart stack => stackTokens stack ++ [.openBracket]
  | objectStart stack => stackTokens stack ++ [.openBrace]
  | key members stack => stackTokens stack ++ .openBrace :: seenMembers members
  | colon members k stack => stackTokens stack ++ .openBrace :: (seenMembers members ++ [.text k])
  | done v stack => stackTokens stack ++ v.tokens

theorem stackTokens_cons {frame : Frame} :
    stackTokens (frame :: stack) = stackTokens stack ++ frame.tokens := by
  simp [stackTokens]

theorem seenItems_cons : seenItems (v :: items) = seenItems items ++ v.tokens ++ [.comma] := by
  simp [seenItems, itemTokens_eq]

theorem seenMembers_cons :
    seenMembers ((k, v) :: members) =
      seenMembers members ++ .text k :: .colon :: (v.tokens ++ [.comma]) := by
  simp [seenMembers, memberTokens_eq]

theorem tokens_array_concat :
    (array (items.reverse ++ [v])).tokens =
      .openBracket :: (seenItems items ++ v.tokens ++ [.closeBracket]) := by
  rw [tokens, itemTokens_eq, List.map_append, List.map_singleton, intercalate_concat, seenItems,
    itemTokens_eq]

theorem tokens_object_concat :
    (object (members.reverse ++ [(k, v)])).tokens =
      .openBrace :: (seenMembers members ++ .text k :: .colon :: v.tokens ++ [.closeBrace]) := by
  rw [tokens, memberTokens_eq, List.map_append, List.map_singleton, intercalate_concat,
    seenMembers, memberTokens_eq]

theorem tokens_stepValue (h : State.stepValue stack t = some s') :
    s'.tokens = stackTokens stack ++ [t] := by
  cases t <;> cases h <;> rfl

theorem tokens_stepDone (h : State.stepDone v stack t = some s') :
    s'.tokens = stackTokens stack ++ v.tokens ++ [t] := by
  simp only [State.stepDone] at h
  split at h <;> cases h
  · simp [State.tokens, stackTokens_cons, Frame.tokens, seenItems_cons]
  · simp [State.tokens, stackTokens_cons, Frame.tokens, tokens_array_concat]
  · simp [State.tokens, stackTokens_cons, Frame.tokens, seenMembers_cons]
  · simp [State.tokens, stackTokens_cons, Frame.tokens, tokens_object_concat]

/-- The reader keeps all that it has got: a step adds its token. -/
theorem tokens_step (h : s.step t = some s') : s'.tokens = s.tokens ++ [t] := by
  cases s with
  | value stack => exact tokens_stepValue h
  | arrayStart stack =>
    cases t <;> cases h <;>
      simp [State.tokens, stackTokens_cons, Frame.tokens, tokens, seenItems, itemTokens]
  | objectStart stack =>
    cases t <;> cases h <;> simp [State.tokens, tokens, seenMembers, memberTokens]
  | key members stack =>
    cases t <;> cases h
    simp [State.tokens]
  | colon members k stack =>
    cases t <;> cases h
    simp [State.tokens, stackTokens_cons, Frame.tokens]
  | done v stack => exact tokens_stepDone h

theorem tokens_foldlM (h : ts.foldlM State.step s = some s') : s'.tokens = s.tokens ++ ts := by
  induction ts generalizing s with
  | nil => cases h; simp
  | cons t ts ih =>
    rw [List.foldlM_cons, Option.bind_eq_bind, Option.bind_eq_some_iff] at h
    obtain ⟨next, hn, h⟩ := h
    rw [ih h, tokens_step hn, List.append_assoc, List.singleton_append]

end Sound

theorem ofTokens?_eq_some_iff : ofTokens? ts = some v ↔ ts = v.tokens := by
  constructor
  · intro h
    obtain ⟨last, hf, hr⟩ := Option.bind_eq_some_iff.mp h
    have ht := tokens_foldlM hf
    simp only [State.result?] at hr
    split at hr <;> cases hr
    exact ht.symm
  · rintro rfl
    rw [ofTokens?, foldlM_tokens]
    rfl

theorem isNumber_of_step_done (h : (State.done v stack).step t = some s') :
    t.isNumber = false := by
  simp only [State.step, State.stepDone] at h
  split at h <;> cases h <;> rfl

theorem exists_done_of_step (h : s.step t = some s') (ht : t.isNumber = true) :
    ∃ v stack, s' = .done v stack := by
  cases t <;> cases ht
  cases s with
  | done v stack => cases isNumber_of_step_done h
  | value | arrayStart | objectStart | key | colon => cases h <;> exact ⟨_, _, rfl⟩

theorem apart_of_foldlM (h : ts.foldlM State.step s = some s') : Token.Apart ts := by
  induction ts generalizing s with
  | nil => exact .nil
  | cons t ts ih =>
    rw [List.foldlM_cons, Option.bind_eq_bind, Option.bind_eq_some_iff] at h
    obtain ⟨next, hn, h⟩ := h
    refine List.isChain_cons.mpr ⟨fun u hu ht => ?_, ih h⟩
    obtain ⟨v, stack, rfl⟩ := exists_done_of_step hn ht
    rw [List.eq_cons_of_mem_head? hu, List.foldlM_cons, Option.bind_eq_bind,
      Option.bind_eq_some_iff] at h
    obtain ⟨_, hs, -⟩ := h
    exact isNumber_of_step_done hs

theorem apart_tokens : Token.Apart v.tokens := apart_of_foldlM foldlM_tokens

/-- The reader gives a value for its texts and for no others. -/
theorem ofBytes?_eq_some_iff : ofBytes? bytes = some v ↔ v.Writes bytes := by
  rw [ofBytes?, Option.bind_eq_some_iff]
  constructor
  · rintro ⟨ts, hl, hv⟩
    obtain rfl := ofTokens?_eq_some_iff.mp hv
    exact Token.laid_of_lex hl
  · intro h
    exact ⟨v.tokens, Token.lexFrom_of_laid h apart_tokens, ofTokens?_eq_some_iff.mpr rfl⟩

end ComponentIdentity.Json
