import Mathlib.Data.List.Induction
import ComponentIdentity.Proofs.Cache

/-! # What a cache has taken

A cache is the list of the components that it took. Of those offered to it, under
whatever refs, it takes each one whose ref, key and identifier no earlier one has,
and refuses the others for the first of the three that is there. Its collections
answer from that list, each component once.
-/

namespace ComponentIdentity.RefCache

variable {cache : RefCache} {stored puts : List (Ref × ResolvedComponent)}
  {p : Ref × ResolvedComponent} {r : Ref} {c : ResolvedComponent} {e : Error}

/-- No stored component has the ref, the key or the identifier of the offered one. -/
def Free (stored : List (Ref × ResolvedComponent)) (p : Ref × ResolvedComponent) : Prop :=
  ∀ q ∈ stored, q.1 ≠ p.1 ∧ q.2.key ≠ p.2.key ∧ q.2.uuid ≠ p.2.uuid

instance : Decidable (Free stored p) :=
  inferInstanceAs (Decidable (∀ q ∈ stored, _))

def taken (puts : List (Ref × ResolvedComponent)) : List (Ref × ResolvedComponent) :=
  puts.foldl (fun stored p => if Free stored p then stored ++ [p] else stored) []

/-- Why a component is refused: for its ref, otherwise for its key, whose owner is named, otherwise
for its identifier. -/
inductive Refused (stored : List (Ref × ResolvedComponent)) (p : Ref × ResolvedComponent) :
    Error → Prop where
  | ref {q : Ref × ResolvedComponent} :
      q ∈ stored → q.1 = p.1 → Refused stored p (.duplicateRef p.1)
  | key {q : Ref × ResolvedComponent} :
      (∀ q ∈ stored, q.1 ≠ p.1) → q ∈ stored → q.2.key = p.2.key →
      Refused stored p (.malformedReport (.sameKey q.1 p.1 p.2.key))
  | uuid {q : Ref × ResolvedComponent} :
      (∀ q ∈ stored, q.1 ≠ p.1) → (∀ q ∈ stored, q.2.key ≠ p.2.key) → q ∈ stored →
      q.2.uuid = p.2.uuid → Refused stored p (.corruptIndex p.2.key p.2.uuid)

theorem exists_refused (hf : ¬ Free stored p) : ∃ e, Refused stored p e := by
  by_cases hr : ∀ q ∈ stored, q.1 ≠ p.1
  · by_cases hk : ∀ q ∈ stored, q.2.key ≠ p.2.key
    · have hu : ∃ q ∈ stored, q.2.uuid = p.2.uuid := by
        by_contra hn
        exact hf fun q hq => ⟨hr q hq, hk q hq, fun he => hn ⟨q, hq, he⟩⟩
      obtain ⟨q, hq, hu⟩ := hu
      exact ⟨_, .uuid hr hk hq hu⟩
    · simp only [not_forall, not_not] at hk
      obtain ⟨q, hq, hk⟩ := hk
      exact ⟨_, .key hr hq hk⟩
  · simp only [not_forall, not_not] at hr
    obtain ⟨q, hq, hr⟩ := hr
    exact ⟨_, .ref hq hr⟩

/-- The three collections hold the stored components and nothing else. -/
structure Holds (cache : RefCache) (stored : List (Ref × ResolvedComponent)) : Prop where
  consistent : cache.Consistent
  get?_eq_some_iff : ∀ r c, cache.get? r = some c ↔ (r, c) ∈ stored
  size_eq : cache.size = stored.length
  size_byKey_eq : cache.byKey.size = stored.length
  size_uuids_eq : cache.uuids.size = stored.length

theorem holds_empty : empty.Holds [] where
  consistent := consistent_empty
  get?_eq_some_iff := by simp
  size_eq := rfl
  size_byKey_eq := rfl
  size_uuids_eq := rfl

namespace Holds

variable (h : cache.Holds stored)
include h

theorem get?_eq_none_iff : cache.get? r = none ↔ ∀ q ∈ stored, q.1 ≠ r := by
  rw [Option.eq_none_iff_forall_ne_some]
  constructor
  · rintro hn q hq rfl
    exact hn q.2 ((h.get?_eq_some_iff q.1 q.2).mpr hq)
  · intro hn c hc
    exact hn (r, c) ((h.get?_eq_some_iff r c).mp hc) rfl

theorem byKey_eq_none_iff {key : String} :
    cache.byKey[key]? = none ↔ ∀ q ∈ stored, q.2.key ≠ key := by
  rw [h.consistent.byKey_eq_none_iff]
  simp only [h.get?_eq_some_iff, Prod.forall]

theorem containsUuid_eq_false_iff {uuid : String} :
    cache.containsUuid uuid = false ↔ ∀ q ∈ stored, q.2.uuid ≠ uuid := by
  rw [h.consistent.containsUuid_eq_false_iff]
  simp only [h.get?_eq_some_iff, Prod.forall]

theorem free_iff : Free stored p ↔ cache.get? p.1 = none ∧ cache.byKey[p.2.key]? = none ∧
    cache.containsUuid p.2.uuid = false := by
  rw [h.get?_eq_none_iff, h.byKey_eq_none_iff, h.containsUuid_eq_false_iff]
  simp only [Free, ← forall_and]

theorem put_of_free (hf : Free stored p) : cache.put p.1 p.2 = .ok (cache.insertFresh p.1 p.2) := by
  obtain ⟨hr, hk, hu⟩ := h.free_iff.mp hf
  exact put_eq_ok_iff.mpr ⟨hr, hk, hu, rfl⟩

/-- A component that is taken stands behind those that were taken before. -/
theorem insertFresh (hf : Free stored p) : (cache.insertFresh p.1 p.2).Holds (stored ++ [p]) := by
  obtain ⟨hr, hk, hu⟩ := h.free_iff.mp hf
  have hkey : cache.byKey.contains p.2.key = false := by
    rw [Std.ExtTreeMap.contains_eq_isSome_getElem?, hk, Option.isSome_none]
  have hbyKey : (cache.byKey.insert p.2.key p.1).size = cache.byKey.size + 1 := by
    rw [Std.ExtTreeMap.size_insert, hkey]
    rfl
  have huuids : (cache.uuids.insert p.2.uuid).size = cache.uuids.size + 1 := by
    rw [Std.ExtTreeSet.size_insert]
    exact if_neg (Bool.eq_false_iff.mp hu)
  have hlength : (stored ++ [p]).length = stored.length + 1 := List.length_append
  refine ⟨h.consistent.put (h.put_of_free hf), fun r c => ?_, ?_, ?_, ?_⟩
  · rw [get?_insertFresh_eq_some_iff hr, h.get?_eq_some_iff, List.mem_append, List.mem_singleton,
      ← Prod.mk.injEq, eq_comm (a := p)]
  · rw [size_insertFresh hr, h.size_eq, hlength]
  · exact hbyKey.trans (by rw [h.size_byKey_eq, hlength])
  · exact huuids.trans (by rw [h.size_uuids_eq, hlength])

theorem put_of_refused (hr : Refused stored p e) : cache.put p.1 p.2 = .error e := by
  have hfree : ∀ {r : Ref}, (∀ q ∈ stored, q.1 ≠ r) → r ∉ cache.byRef := by
    intro r hn
    rw [mem_byRef_iff, not_not]
    exact h.get?_eq_none_iff.mpr hn
  unfold put
  cases hr with
  | @ref q hq he =>
    have hget := (h.get?_eq_some_iff p.1 q.2).mpr (he ▸ hq)
    rw [if_pos (mem_byRef_iff.mpr (Option.ne_none_iff_exists'.mpr ⟨q.2, hget⟩))]
  | @key q hn hq hk =>
    have howner := (h.consistent.byKey_eq_some_iff p.2.key q.1).mpr
      ⟨q.2, (h.get?_eq_some_iff q.1 q.2).mpr hq, hk⟩
    rw [if_neg (hfree hn), howner]
  | @uuid q hn hk hq hu =>
    have huuid := (h.consistent.containsUuid_iff p.2.uuid).mpr
      ⟨q.1, q.2, (h.get?_eq_some_iff q.1 q.2).mpr hq, hu⟩
    rw [if_neg (hfree hn), h.byKey_eq_none_iff.mpr hk]
    exact if_pos huuid

theorem put_eq_error_iff : cache.put p.1 p.2 = .error e ↔ Refused stored p e := by
  refine ⟨fun he => ?_, h.put_of_refused⟩
  have hf : ¬ Free stored p := by
    intro hf
    rw [h.put_of_free hf] at he
    cases he
  obtain ⟨e', hr⟩ := exists_refused hf
  cases he.symm.trans (h.put_of_refused hr)
  exact hr

end Holds

theorem ofPuts_concat : ofPuts (puts ++ [p]) = (ofPuts puts).offer p := by
  rw [ofPuts, List.foldl_append]
  rfl

theorem taken_concat :
    taken (puts ++ [p]) = if Free (taken puts) p then taken puts ++ [p] else taken puts := by
  rw [taken, List.foldl_append]
  rfl

/-- Behind any sequence of puts a cache holds the components that were taken. -/
theorem holds_ofPuts (puts : List (Ref × ResolvedComponent)) :
    (ofPuts puts).Holds (taken puts) := by
  induction puts using List.reverseRecOn with
  | nil => exact holds_empty
  | append_singleton puts p ih =>
    rw [ofPuts_concat, taken_concat, offer]
    by_cases hf : Free (taken puts) p
    · rw [if_pos hf, ih.put_of_free hf]
      exact ih.insertFresh hf
    · obtain ⟨e, hr⟩ := exists_refused hf
      rw [if_neg hf, ih.put_of_refused hr]
      exact ih

def Distinct (stored : List (Ref × ResolvedComponent)) : Prop :=
  stored.Pairwise fun p q => p.1 ≠ q.1 ∧ p.2.key ≠ q.2.key ∧ p.2.uuid ≠ q.2.uuid

theorem distinct_taken (puts : List (Ref × ResolvedComponent)) : Distinct (taken puts) := by
  induction puts using List.reverseRecOn with
  | nil => exact .nil
  | append_singleton puts p ih =>
    rw [taken_concat]
    split
    next hf =>
      refine List.pairwise_append.mpr ⟨ih, List.pairwise_singleton _ _, fun q hq b hb => ?_⟩
      rw [List.mem_singleton.mp hb]
      exact hf q hq
    · exact ih

/-- What the collections answer that have these components: the owner of a key is the ref under
which it is stored, and every ref comes once, in ascending order. -/
structure Answers (cache : RefCache) (stored : List (Ref × ResolvedComponent)) : Prop where
  get?_eq_some_iff : ∀ r c, cache.get? r = some c ↔ (r, c) ∈ stored
  byKey_eq_some_iff : ∀ (key : String) r,
    cache.byKey[key]? = some r ↔ ∃ c, cache.get? r = some c ∧ c.key = key
  getByKey?_eq_some_iff : ∀ key c,
    cache.getByKey? key = some c ↔ ∃ r, cache.get? r = some c ∧ c.key = key
  mem_uuids_iff : ∀ uuid, uuid ∈ cache.uuids ↔ ∃ r c, cache.get? r = some c ∧ c.uuid = uuid
  containsUuid_iff : ∀ uuid,
    cache.containsUuid uuid = true ↔ ∃ r c, cache.get? r = some c ∧ c.uuid = uuid
  sizes_eq : cache.byRef.size = stored.length ∧ cache.byKey.size = stored.length ∧
    cache.uuids.size = stored.length
  toList_perm : cache.toList.Perm stored
  ascending : (cache.toList.map (·.1)).Pairwise (· < ·)

theorem Holds.answers (h : cache.Holds stored) (hd : Distinct stored) : cache.Answers stored where
  get?_eq_some_iff := h.get?_eq_some_iff
  byKey_eq_some_iff := h.consistent.byKey_eq_some_iff
  getByKey?_eq_some_iff _ _ := h.consistent.getByKey?_eq_some_iff
  mem_uuids_iff := h.consistent.containsUuid_iff
  containsUuid_iff := h.consistent.containsUuid_iff
  sizes_eq := ⟨h.size_eq, h.size_byKey_eq, h.size_uuids_eq⟩
  toList_perm := by
    have hn : stored.Nodup := hd.imp fun hne he => hne.1 (congrArg Prod.fst he)
    rw [List.perm_ext_iff_of_nodup nodup_toList hn]
    rintro ⟨r, c⟩
    rw [mem_toList_iff, h.get?_eq_some_iff]
  ascending := List.pairwise_map.mpr pairwise_toList

/-- After any sequence of puts the cache answers from the components that were taken, which are
distinct. A further one is taken exactly if it is free, and otherwise refused for the first thing
that it has in common with one of them, while the cache stays as it was. -/
theorem ofPuts_answers (puts : List (Ref × ResolvedComponent)) :
    (ofPuts puts).Answers (taken puts) ∧ Distinct (taken puts) ∧
      ∀ p : Ref × ResolvedComponent,
        (∀ cache, (ofPuts puts).put p.1 p.2 = .ok cache ↔
          Free (taken puts) p ∧ cache = ofPuts (puts ++ [p])) ∧
        (∀ e, (ofPuts puts).put p.1 p.2 = .error e ↔ Refused (taken puts) p e) ∧
        (¬ Free (taken puts) p → ofPuts (puts ++ [p]) = ofPuts puts) := by
  have h := holds_ofPuts puts
  have hd := distinct_taken puts
  refine ⟨h.answers hd, hd, fun p => ⟨fun cache => ?_, fun e => h.put_eq_error_iff, fun hf => ?_⟩⟩
  · rw [ofPuts_concat, offer]
    by_cases hf : Free (taken puts) p
    · rw [h.put_of_free hf, and_iff_right hf, Except.ok.injEq, eq_comm]
    · obtain ⟨e, hr⟩ := exists_refused hf
      simp only [h.put_of_refused hr, hf, reduceCtorEq, false_and]
  · obtain ⟨e, hr⟩ := exists_refused hf
    rw [ofPuts_concat, offer, h.put_of_refused hr]

/-- Under a foreign ref a component takes its key and its identifier, but not its own ref. -/
example : taken [(1, ⟨7, "P", "u"⟩), (2, ⟨2, "P", "v"⟩), (7, ⟨7, "Q", "u"⟩), (7, ⟨1, "Q", "v"⟩)] =
    [(1, ⟨7, "P", "u"⟩), (7, ⟨1, "Q", "v"⟩)] := by decide

end ComponentIdentity.RefCache
