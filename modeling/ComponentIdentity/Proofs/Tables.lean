import Mathlib.Data.List.Nodup
import ComponentIdentity.Index.Stored
import ComponentIdentity.Proofs.Cache

/-! # Tables that are inverse to each other

Recording a run keeps the two tables inverse, whatever the run moves: a run that
is accepted takes an identifier from a key only by giving that key another one,
so nothing that is released before the assignments is missed after them.
-/

namespace ComponentIdentity

section Fold

variable {α : Type} {f g : α → String} {l : List α} {table : Std.ExtTreeMap String String}

theorem getElem?_foldl_insert_iff (hl : (l.map f).Nodup) {x y : String} :
    (l.foldl (fun table a => table.insert (f a) (g a)) table)[x]? = some y ↔
      (∃ a ∈ l, f a = x ∧ g a = y) ∨ (x ∉ l.map f ∧ table[x]? = some y) := by
  induction l generalizing table with
  | nil => simp
  | cons a l ih =>
    obtain ⟨ha, hl⟩ := List.nodup_cons.mp hl
    simp only [List.foldl_cons, ih hl, Std.ExtTreeMap.getElem?_insert,
      Std.LawfulEqCmp.compare_eq_iff_eq]
    by_cases hx : f a = x
    · subst hx
      rw [if_pos rfl]
      constructor
      · rintro (⟨b, hb, hf, hg⟩ | ⟨-, hg⟩)
        · exact .inl ⟨b, List.mem_cons_of_mem _ hb, hf, hg⟩
        · exact .inl ⟨a, by simp, rfl, Option.some.inj hg⟩
      · rintro (⟨b, hb, hf, hg⟩ | ⟨hn, -⟩)
        · rcases List.mem_cons.mp hb with rfl | hb
          · exact .inr ⟨ha, congrArg some hg⟩
          · exact .inl ⟨b, hb, hf, hg⟩
        · exact absurd (by simp) hn
    · simp [hx, Ne.symm hx]

theorem size_foldl_insert (hl : (l.map f).Nodup) (hf : ∀ a ∈ l, f a ∉ table) :
    (l.foldl (fun table a => table.insert (f a) (g a)) table).size = table.size + l.length := by
  induction l generalizing table with
  | nil => rfl
  | cons a l ih =>
    obtain ⟨ha, hl⟩ := List.nodup_cons.mp hl
    have hfresh : ∀ b ∈ l, f b ∉ table.insert (f a) (g a) := by
      intro b hb hm
      rw [Std.ExtTreeMap.mem_insert, Std.LawfulEqCmp.compare_eq_iff_eq] at hm
      rcases hm with hab | hm
      · exact ha (hab ▸ List.mem_map_of_mem hb)
      · exact hf b (by simp [hb]) hm
    have hsize : (table.insert (f a) (g a)).size = table.size + 1 := by
      rw [Std.ExtTreeMap.size_insert]
      exact if_neg (hf a (by simp))
    rw [List.foldl_cons, ih hl hfresh, hsize, List.length_cons]
    omega

end Fold

namespace IdentityTables

variable {tables tables' : IdentityTables} {cache : RefCache} {l : List IdentityChange}
  {key uuid : String} {c : ResolvedComponent}

/-- The two tables are inverse to each other. -/
def Inverse (tables : IdentityTables) : Prop :=
  ∀ key uuid : String, tables.uuidsByKey[key]? = some uuid ↔ tables.keysByUuid[uuid]? = some key

theorem inverse_empty : Inverse empty := by
  intro key uuid
  simp [empty]

theorem Inverse.eq_of_uuid_eq (h : tables.Inverse) {key' : String}
    (hk : tables.uuidForKey key = some uuid) (hk' : tables.uuidForKey key' = some uuid) :
    key = key' := by
  have h₁ := (h key uuid).mp hk
  have h₂ := (h key' uuid).mp hk'
  exact Option.some.inj (h₁.symm.trans h₂)

theorem Inverse.containsUuid_iff (h : tables.Inverse) :
    tables.containsUuid uuid = true ↔ ∃ key, tables.uuidForKey key = some uuid := by
  rw [containsUuid, Std.ExtTreeMap.contains_eq_isSome_getElem?, Option.isSome_iff_exists]
  exact exists_congr fun key => (h key uuid).symm

theorem uuidsByKey_foldl_assign :
    (l.foldl assign tables).uuidsByKey =
      l.foldl (fun table change => table.insert change.key change.uuid) tables.uuidsByKey := by
  induction l generalizing tables with
  | nil => rfl
  | cons change l ih => exact ih

theorem keysByUuid_foldl_assign :
    (l.foldl assign tables).keysByUuid =
      l.foldl (fun table change => table.insert change.uuid change.key) tables.keysByUuid := by
  induction l generalizing tables with
  | nil => rfl
  | cons change l ih => exact ih

theorem uuidsByKey_foldl_release :
    (l.foldl release tables).uuidsByKey = tables.uuidsByKey := by
  induction l generalizing tables with
  | nil => rfl
  | cons change l ih =>
    rw [List.foldl_cons, ih, release]
    split <;> rfl

theorem keysByUuid_release_iff {change : IdentityChange} :
    (tables.release change).keysByUuid[uuid]? = some key ↔
      change.previous ≠ some uuid ∧ tables.keysByUuid[uuid]? = some key := by
  rw [release]
  split
  next hp => simp [hp]
  next previous hp =>
    simp only [hp, Std.ExtTreeMap.getElem?_erase, Std.LawfulEqCmp.compare_eq_iff_eq]
    by_cases hu : previous = uuid <;> simp [hu]

theorem keysByUuid_foldl_release_iff :
    (l.foldl release tables).keysByUuid[uuid]? = some key ↔
      (∀ change ∈ l, change.previous ≠ some uuid) ∧ tables.keysByUuid[uuid]? = some key := by
  induction l generalizing tables with
  | nil => simp
  | cons change l ih =>
    rw [List.foldl_cons, ih, keysByUuid_release_iff, List.forall_mem_cons]
    tauto

theorem uuidForKey_apply_iff (hn : (l.map (·.key)).Nodup) :
    (tables.apply l).uuidForKey key = some uuid ↔
      (∃ change ∈ l, change.key = key ∧ change.uuid = uuid) ∨
        (key ∉ l.map (·.key) ∧ tables.uuidForKey key = some uuid) := by
  rw [uuidForKey, apply, uuidsByKey_foldl_assign, uuidsByKey_foldl_release,
    getElem?_foldl_insert_iff hn]
  rfl

/-- Changes that can be made together: no key and no identifier occurs twice, each says what the
key has, and an identifier that a key has is given away only if that key changes too. -/
structure Fits (tables : IdentityTables) (l : List IdentityChange) : Prop where
  nodup_keys : (l.map (·.key)).Nodup
  nodup_uuids : (l.map (·.uuid)).Nodup
  previous_eq : ∀ change ∈ l, change.previous = tables.uuidForKey change.key
  owner_mem : ∀ change ∈ l, ∀ key, tables.uuidForKey key = some change.uuid →
    key ∈ l.map (·.key)

namespace Fits

variable (h : tables.Fits l)
include h

theorem keysByUuid_apply_iff :
    (tables.apply l).keysByUuid[uuid]? = some key ↔
      (∃ change ∈ l, change.uuid = uuid ∧ change.key = key) ∨
        (uuid ∉ l.map (·.uuid) ∧ (∀ change ∈ l, change.previous ≠ some uuid) ∧
          tables.keysByUuid[uuid]? = some key) := by
  rw [apply, keysByUuid_foldl_assign, getElem?_foldl_insert_iff h.nodup_uuids,
    keysByUuid_foldl_release_iff]

theorem key_not_mem_iff (hi : tables.Inverse) (hk : tables.uuidForKey key = some uuid) :
    key ∉ l.map (·.key) ↔
      uuid ∉ l.map (·.uuid) ∧ ∀ change ∈ l, change.previous ≠ some uuid := by
  constructor
  · intro hn
    constructor
    · intro hu
      obtain ⟨change, hm, rfl⟩ := List.mem_map.mp hu
      exact hn (h.owner_mem change hm key hk)
    · intro change hm hp
      rw [h.previous_eq change hm] at hp
      cases hi.eq_of_uuid_eq hk hp
      exact hn (List.mem_map_of_mem hm)
  · rintro ⟨-, hp⟩ hn
    obtain ⟨change, hm, rfl⟩ := List.mem_map.mp hn
    exact hp change hm ((h.previous_eq change hm).trans hk)

theorem inverse_apply (hi : tables.Inverse) : (tables.apply l).Inverse := by
  intro key uuid
  change (tables.apply l).uuidForKey key = some uuid ↔ _
  rw [uuidForKey_apply_iff h.nodup_keys, h.keysByUuid_apply_iff, ← hi key uuid, ← and_assoc]
  refine or_congr (exists_congr fun change => and_congr_right fun _ => and_comm) ?_
  exact and_congr_left fun hk => h.key_not_mem_iff hi hk

theorem size_apply (hf : ∀ change ∈ l, change.previous = none) :
    (tables.apply l).size = tables.size + l.length := by
  rw [size, apply, uuidsByKey_foldl_assign, uuidsByKey_foldl_release,
    size_foldl_insert h.nodup_keys]
  · rfl
  · intro change hm hc
    have hp := (h.previous_eq change hm).symm.trans (hf change hm)
    rw [Std.ExtTreeMap.mem_iff_isSome_getElem?] at hc
    rw [uuidForKey] at hp
    simp [hp] at hc

end Fits

theorem accept_eq {seen : Std.ExtTreeSet String} :
    tables.accept cache seen c =
      if c.uuid ∈ seen ∨ tables.keptByOther cache c = true then .error (.corruptIndex c.key c.uuid)
      else .ok (seen.insert c.uuid) := by
  rw [accept]
  simp only [Bool.or_eq_true, Std.ExtTreeSet.mem_iff_contains]

/-- Components with distinct identifiers are refused at the first one whose identifier another
key keeps. -/
theorem foldlM_accept (tables : IdentityTables) (cache : RefCache)
    {cs : List ResolvedComponent} {seen : Std.ExtTreeSet String}
    (hn : (cs.map (·.uuid)).Nodup) (hs : ∀ c ∈ cs, c.uuid ∉ seen) :
    match cs.find? (tables.keptByOther cache) with
    | some c => cs.foldlM (tables.accept cache) seen = .error (.corruptIndex c.key c.uuid)
    | none => ∃ seen', cs.foldlM (tables.accept cache) seen = .ok seen' := by
  induction cs generalizing seen with
  | nil => exact ⟨seen, rfl⟩
  | cons c cs ih =>
    obtain ⟨hc, hn⟩ := List.nodup_cons.mp hn
    rw [List.foldlM_cons, accept_eq, List.find?_cons]
    cases hk : tables.keptByOther cache c with
    | true => simp only [or_true, if_true]; rfl
    | false =>
      rw [if_neg (by simpa using hs c (by simp))]
      refine ih hn fun d hd hm => ?_
      rw [Std.ExtTreeSet.mem_insert, Std.LawfulEqCmp.compare_eq_iff_eq] at hm
      rcases hm with hcd | hm
      · exact hc (List.mem_map.mpr ⟨d, hd, hcd.symm⟩)
      · exact hs d (by simp [hd]) hm

/-- The components of a cache, in the order of their refs. -/
def components (cache : RefCache) : List ResolvedComponent := cache.toList.map (·.2)

theorem mem_components_iff : c ∈ components cache ↔ ∃ r, cache.get? r = some c := by
  simp [components, RefCache.mem_toList_iff]

theorem nodup_components_key (hc : cache.Consistent) :
    ((components cache).map (·.key)).Nodup := by
  simpa [components, Function.comp_def] using hc.nodup_keys

theorem nodup_components_uuid (hc : cache.Consistent) :
    ((components cache).map (·.uuid)).Nodup := by
  simpa [components, Function.comp_def] using hc.nodup_uuids

/-- A run is refused at the first component whose identifier another key keeps. -/
theorem changes_eq (hc : cache.Consistent) :
    tables.changes cache =
      match (components cache).find? (tables.keptByOther cache) with
      | some c => .error (.corruptIndex c.key c.uuid)
      | none => .ok ((components cache).filterMap tables.change?) := by
  have h := foldlM_accept tables cache (nodup_components_uuid hc)
    fun _ _ => Std.ExtTreeSet.not_mem_empty
  change (components cache).foldlM (tables.accept cache) ∅ >>= (fun _ =>
    pure ((components cache).filterMap tables.change?)) = _
  split at h
  next c hf => rw [h]; rfl
  next hf =>
    obtain ⟨seen, h⟩ := h
    rw [h]
    rfl

theorem eq_filterMap_of_changes (hc : cache.Consistent) (h : tables.changes cache = .ok l) :
    l = (components cache).filterMap tables.change? := by
  rw [changes_eq hc] at h
  split at h
  · cases h
  · exact (Except.ok.inj h).symm

/-- The components whose identifier is new or another one, and what each of them changes. -/
theorem filterMap_change? {cs : List ResolvedComponent} :
    cs.filterMap tables.change? =
      (cs.filter fun c => decide (tables.uuidForKey c.key ≠ some c.uuid)).map fun c =>
        ⟨c.key, c.uuid, tables.uuidForKey c.key⟩ := by
  induction cs with
  | nil => rfl
  | cons c cs ih =>
    by_cases h : tables.uuidForKey c.key = some c.uuid
    · simp [change?, h, ih]
    · simp [change?, h, ih]

theorem nodup_changes_key (hc : cache.Consistent) :
    (((components cache).filterMap tables.change?).map (·.key)).Nodup := by
  rw [filterMap_change?, List.map_map]
  exact (nodup_components_key hc).sublist (List.filter_sublist.map _)

theorem mem_changes_iff {change : IdentityChange} :
    change ∈ (components cache).filterMap tables.change? ↔
      ∃ r c, cache.get? r = some c ∧ tables.uuidForKey c.key ≠ some c.uuid ∧
        change = ⟨c.key, c.uuid, tables.uuidForKey c.key⟩ := by
  simp only [filterMap_change?, List.mem_map, List.mem_filter, mem_components_iff,
    decide_eq_true_eq]
  constructor
  · rintro ⟨c, ⟨⟨r, hr⟩, hn⟩, rfl⟩; exact ⟨r, c, hr, hn, rfl⟩
  · rintro ⟨r, c, hr, hn, rfl⟩; exact ⟨c, ⟨⟨r, hr⟩, hn⟩, rfl⟩

theorem keptByOther_eq_false (hk : tables.keptByOther cache c = false)
    (ho : tables.keysByUuid[c.uuid]? = some key) (hne : key ≠ c.key) :
    ∃ o, cache.getByKey? key = some o ∧ o.uuid ≠ c.uuid := by
  unfold keptByOther at hk
  rw [ho] at hk
  simp only [ne_eq, hne, not_false_eq_true, decide_true, Bool.true_and] at hk
  cases hg : cache.getByKey? key with
  | none => simp [hg] at hk
  | some o => exact ⟨o, rfl, by simpa [hg] using hk⟩

theorem fits_of_changes (hi : tables.Inverse) (hc : cache.Consistent)
    (h : tables.changes cache = .ok l) : tables.Fits l := by
  rw [changes_eq hc] at h
  split at h
  · cases h
  next hf =>
    cases h
    have hkept : ∀ r c, cache.get? r = some c → tables.keptByOther cache c = false := by
      intro r c hr
      exact Bool.eq_false_iff.mpr (List.find?_eq_none.mp hf c (mem_components_iff.mpr ⟨r, hr⟩))
    refine ⟨nodup_changes_key hc, ?_, ?_, ?_⟩
    · rw [filterMap_change?, List.map_map]
      exact (nodup_components_uuid hc).sublist (List.filter_sublist.map _)
    · intro change hm
      obtain ⟨r, c, hr, hn, rfl⟩ := mem_changes_iff.mp hm
      rfl
    · intro change hm key hk
      obtain ⟨r, c, hr, hn, rfl⟩ := mem_changes_iff.mp hm
      by_cases hkc : key = c.key
      · rw [hkc]
        exact List.mem_map_of_mem hm
      · obtain ⟨o, ho, hu⟩ := keptByOther_eq_false (hkept r c hr) ((hi key c.uuid).mp hk) hkc
        obtain ⟨r', hr', rfl⟩ := hc.getByKey?_eq_some_iff.mp ho
        refine List.mem_map.mpr ⟨_, mem_changes_iff.mpr ⟨r', o, hr', ?_, rfl⟩, rfl⟩
        rw [hk]
        exact fun he => hu (Option.some.inj he).symm

end IdentityTables

end ComponentIdentity
