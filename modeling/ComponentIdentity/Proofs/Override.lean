import ComponentIdentity.Proofs.Memory
import ComponentIdentity.Proofs.Tables

/-! # What a run leaves of what was known

A run overrides the known identities: its keys get its identifiers, and every
other key keeps the one it had. Both kinds of index take a run in this way, and
the index that is stored refuses it exactly if two keys would share an identifier.
-/

namespace ComponentIdentity

def Unshared (known : String → Option String) : Prop :=
  ∀ key key' uuid, known key = some uuid → known key' = some uuid → key = key'

namespace RefCache

variable {cache : RefCache} {known : String → Option String} {key uuid : String}

/-- The identifiers of a run, and those that were known for the keys that it does not have. -/
def override (cache : RefCache) (known : String → Option String) (key : String) : Option String :=
  match cache.getByKey? key with
  | some c => some c.uuid
  | none => known key

def identities (cache : RefCache) : List (String × String) :=
  cache.toList.map fun e => (e.2.key, e.2.uuid)

theorem mem_identities_iff :
    (key, uuid) ∈ cache.identities ↔ ∃ r c, cache.get? r = some c ∧ c.key = key ∧ c.uuid = uuid := by
  simp only [identities, List.mem_map, Prod.exists, mem_toList_iff, Prod.mk.injEq]

theorem Consistent.nodup_fst_identities (hc : cache.Consistent) :
    (cache.identities.map (·.1)).Nodup := by
  rw [identities, List.map_map]
  exact hc.nodup_keys

theorem Consistent.getByKey?_eq_none_iff_not_mem (hc : cache.Consistent) :
    key ∉ cache.identities.map (·.1) ↔ cache.getByKey? key = none := by
  simp only [hc.getByKey?_eq_none_iff, identities, List.map_map, List.mem_map, Prod.exists,
    mem_toList_iff, Function.comp_apply, not_exists, not_and, ne_eq]

theorem override_eq_some_iff (hc : cache.Consistent) :
    cache.override known key = some uuid ↔
      (key, uuid) ∈ cache.identities ∨ (cache.getByKey? key = none ∧ known key = some uuid) := by
  rw [mem_identities_iff]
  unfold override
  split
  next c hk =>
    obtain ⟨r, hr, hck⟩ := hc.getByKey?_eq_some_iff.mp hk
    simp only [hk, Option.some.injEq, reduceCtorEq, false_and, or_false]
    constructor
    · rintro rfl
      exact ⟨r, c, hr, hck, rfl⟩
    · rintro ⟨r', c', hr', hck', rfl⟩
      cases hc.eq_of_key_eq hr hr' (hck.trans hck'.symm)
      cases hr.symm.trans hr'
      rfl
  next hk =>
    simp only [hk, true_and]
    refine ⟨.inr, ?_⟩
    rintro (⟨r, c, hr, hck, -⟩ | h)
    · exact absurd hck (hc.getByKey?_eq_none_iff.mp hk r c hr)
    · exact h

theorem override_of_get? (hc : cache.Consistent) {r : Ref} {c : ResolvedComponent}
    (hr : cache.get? r = some c) : cache.override known c.key = some c.uuid :=
  (override_eq_some_iff hc).mpr (.inl (mem_identities_iff.mpr ⟨r, c, hr, rfl, rfl⟩))

theorem unshared_override_iff (hc : cache.Consistent) (hk : Unshared known) :
    Unshared (cache.override known) ↔
      ∀ r c owner, cache.get? r = some c → known owner = some c.uuid →
        ∃ o, cache.getByKey? owner = some o := by
  constructor
  · intro h r c owner hr ho
    rw [← Option.ne_none_iff_exists']
    intro hn
    have he := h owner c.key c.uuid ((override_eq_some_iff hc).mpr (.inr ⟨hn, ho⟩))
      (override_of_get? hc hr)
    exact hc.getByKey?_eq_none_iff.mp hn r c hr he.symm
  · intro h key key' uuid hu hu'
    rw [override_eq_some_iff hc, mem_identities_iff] at hu hu'
    rcases hu with ⟨r, c, hr, rfl, rfl⟩ | ⟨hn, hu⟩ <;>
      rcases hu' with ⟨r', c', hr', rfl, he⟩ | ⟨hn', hu'⟩
    · cases hc.eq_of_uuid_eq hr hr' he.symm
      cases hr.symm.trans hr'
      rfl
    · obtain ⟨o, ho⟩ := h r c key' hr hu'
      cases hn'.symm.trans ho
    · obtain ⟨o, ho⟩ := h r' c' key hr' (he ▸ hu)
      cases hn.symm.trans ho
    · exact hk key key' uuid hu hu'

/-- Every component has the identifier known for its key, or a key that is not known and an
identifier that no key has. -/
def Suits (cache : RefCache) (known : String → Option String) : Prop :=
  ∀ r c, cache.get? r = some c → known c.key = some c.uuid ∨
    known c.key = none ∧ ∀ key, known key ≠ some c.uuid

namespace Suits

variable (hs : cache.Suits known)
include hs

theorem uuid_eq {r : Ref} {c : ResolvedComponent} (hr : cache.get? r = some c)
    (hk : known c.key = some uuid) : c.uuid = uuid := by
  rcases hs r c hr with h | ⟨h, -⟩
  · exact Option.some.inj (h.symm.trans hk)
  · cases h.symm.trans hk

theorem ne_of_eq_none {r : Ref} {c : ResolvedComponent} (hr : cache.get? r = some c)
    (hk : known c.key = none) (key : String) : known key ≠ some c.uuid := by
  rcases hs r c hr with h | ⟨-, h⟩
  · cases hk.symm.trans h
  · exact h key

theorem unshared_override (hc : cache.Consistent) (hk : Unshared known) :
    Unshared (cache.override known) := by
  rw [unshared_override_iff hc hk]
  intro r c owner hr ho
  rcases hs r c hr with h | ⟨-, h⟩
  · cases hk owner c.key c.uuid ho h
    exact ⟨c, hc.getByKey?_eq_some_iff.mpr ⟨r, hr, rfl⟩⟩
  · exact absurd ho (h owner)

theorem override_of_known (hc : cache.Consistent) (hk : known key = some uuid) :
    cache.override known key = some uuid := by
  rw [override_eq_some_iff hc, mem_identities_iff]
  cases hg : cache.getByKey? key with
  | none => exact .inr ⟨rfl, hk⟩
  | some c =>
    obtain ⟨r, hr, rfl⟩ := hc.getByKey?_eq_some_iff.mp hg
    exact .inl ⟨r, c, hr, rfl, hs.uuid_eq hr hk⟩

end Suits

theorem suits_of_forall_eq_none (h : ∀ key, known key = none) : cache.Suits known :=
  fun _ c _ => .inr ⟨h c.key, fun key => by simp [h]⟩

end RefCache

namespace IdentityTables

variable {tables : IdentityTables} {cache : RefCache} {changes : List IdentityChange}

theorem Inverse.unshared (hi : tables.Inverse) : Unshared tables.uuidForKey :=
  fun _ _ _ h h' => hi.eq_of_uuid_eq h h'

/-- Another key keeps the identifier of a component if the run does not have that key. -/
theorem keptByOther_iff (hi : tables.Inverse) (hc : cache.Consistent) {r : Ref}
    {c : ResolvedComponent} (hr : cache.get? r = some c) :
    tables.keptByOther cache c = true ↔
      ∃ owner, tables.uuidForKey owner = some c.uuid ∧ cache.getByKey? owner = none := by
  unfold keptByOther
  split
  next hn =>
    simp only [Bool.false_eq_true, false_iff, not_exists, not_and]
    intro owner ho
    rw [uuidForKey, hi owner c.uuid, hn] at ho
    cases ho
  next owner ho =>
    have hown : ∀ key, tables.uuidForKey key = some c.uuid ↔ key = owner := by
      intro key
      rw [uuidForKey, hi key c.uuid, ho, Option.some.injEq, eq_comm]
    simp only [hown, exists_eq_left, Bool.and_eq_true, decide_eq_true_eq]
    constructor
    · rintro ⟨hne, hall⟩
      rw [Option.eq_none_iff_forall_ne_some]
      intro o hk
      obtain ⟨r', hr', rfl⟩ := hc.getByKey?_eq_some_iff.mp hk
      rw [hk, Option.all_some, beq_iff_eq] at hall
      cases hc.eq_of_uuid_eq hr hr' hall.symm
      cases hr.symm.trans hr'
      exact hne rfl
    · intro hn
      refine ⟨?_, by rw [hn]; rfl⟩
      rintro rfl
      exact hc.getByKey?_eq_none_iff.mp hn r c hr rfl

/-- A run is accepted exactly if no two keys would share an identifier. -/
theorem exists_changes_iff (hi : tables.Inverse) (hc : cache.Consistent) :
    (∃ changes, tables.changes cache = .ok changes) ↔
      Unshared (cache.override tables.uuidForKey) := by
  have hok : (∃ changes, tables.changes cache = .ok changes) ↔
      (components cache).find? (tables.keptByOther cache) = none := by
    rw [changes_eq hc]
    split
    next c hf => simp [hf]
    next hf => simp [hf]
  rw [hok, List.find?_eq_none, RefCache.unshared_override_iff hc hi.unshared]
  constructor
  · intro h r c owner hr ho
    rw [← Option.ne_none_iff_exists']
    intro hn
    exact h c (mem_components_iff.mpr ⟨r, hr⟩) ((keptByOther_iff hi hc hr).mpr ⟨owner, ho, hn⟩)
  · intro h c hm hk
    obtain ⟨r, hr⟩ := mem_components_iff.mp hm
    obtain ⟨owner, ho, hn⟩ := (keptByOther_iff hi hc hr).mp hk
    obtain ⟨o, hs⟩ := h r c owner hr ho
    cases hn.symm.trans hs

/-- A run that is accepted overrides what the tables knew. -/
theorem uuidForKey_apply_changes (hc : cache.Consistent)
    (h : tables.changes cache = .ok changes) :
    (tables.apply changes).uuidForKey = cache.override tables.uuidForKey := by
  obtain rfl := eq_filterMap_of_changes hc h
  funext key
  ext uuid
  rw [uuidForKey_apply_iff (nodup_changes_key hc), RefCache.override_eq_some_iff hc,
    RefCache.mem_identities_iff]
  have hmem : key ∈ ((components cache).filterMap tables.change?).map (·.key) ↔
      ∃ r c, cache.get? r = some c ∧ c.key = key ∧ tables.uuidForKey c.key ≠ some c.uuid := by
    rw [List.mem_map]
    constructor
    · rintro ⟨change, hm, rfl⟩
      obtain ⟨r, c, hr, hn, rfl⟩ := mem_changes_iff.mp hm
      exact ⟨r, c, hr, rfl, hn⟩
    · rintro ⟨r, c, hr, rfl, hn⟩
      exact ⟨_, mem_changes_iff.mpr ⟨r, c, hr, hn, rfl⟩, rfl⟩
  constructor
  · rintro (⟨change, hm, rfl, rfl⟩ | ⟨hn, hk⟩)
    · obtain ⟨r, c, hr, -, rfl⟩ := mem_changes_iff.mp hm
      exact .inl ⟨r, c, hr, rfl, rfl⟩
    · cases hg : cache.getByKey? key with
      | none => exact .inr ⟨rfl, hk⟩
      | some c =>
        -- A component of the run whose key does not change has the identifier already.
        obtain ⟨r, hr, rfl⟩ := hc.getByKey?_eq_some_iff.mp hg
        refine .inl ⟨r, c, hr, rfl, ?_⟩
        have he : tables.uuidForKey c.key = some c.uuid :=
          not_not.mp fun hne => hn (hmem.mpr ⟨r, c, hr, rfl, hne⟩)
        exact Option.some.inj (he.symm.trans hk)
  · rintro (⟨r, c, hr, rfl, rfl⟩ | ⟨hn, hk⟩)
    · by_cases he : tables.uuidForKey c.key = some c.uuid
      · refine .inr ⟨fun hmk => ?_, he⟩
        obtain ⟨r', c', hr', hck, hne⟩ := hmem.mp hmk
        cases hc.eq_of_key_eq hr hr' hck.symm
        cases hr.symm.trans hr'
        exact hne he
      · exact .inl ⟨_, mem_changes_iff.mpr ⟨r, c, hr, he, rfl⟩, rfl, rfl⟩
    · refine .inr ⟨fun hmk => ?_, hk⟩
      obtain ⟨r, c, hr, hck, -⟩ := hmem.mp hmk
      exact hc.getByKey?_eq_none_iff.mp hn r c hr hck

end IdentityTables

namespace MemoryIndex

variable {index : MemoryIndex} {cache : RefCache} {key uuid : String}
  {entries order : List (String × String)}

def insertAll (index : MemoryIndex) (entries : List (String × String)) : MemoryIndex :=
  entries.foldl (fun index e => index.insert e.1 e.2) index

theorem ofList_eq_insertAll : ofList entries = empty.insertAll entries := rfl

theorem merge_eq_insertAll : index.merge cache = index.insertAll cache.identities := by
  rw [insertAll, RefCache.identities, List.foldl_map, merge]

theorem uuidsByKey_insertAll :
    (index.insertAll entries).uuidsByKey =
      entries.foldl (fun table e => table.insert e.1 e.2) index.uuidsByKey := by
  induction entries generalizing index with
  | nil => rfl
  | cons e entries ih => exact ih

theorem uuidForKey_insertAll_iff (hn : (entries.map (·.1)).Nodup) :
    (index.insertAll entries).uuidForKey key = some uuid ↔
      (key, uuid) ∈ entries ∨ (key ∉ entries.map (·.1) ∧ index.uuidForKey key = some uuid) := by
  rw [uuidForKey, uuidsByKey_insertAll, getElem?_foldl_insert_iff hn]
  simp only [Prod.exists, exists_eq_right_right, exists_eq_right]
  rfl

/-- The identities of a run override what the index knew, in whatever order they are inserted. -/
theorem uuidForKey_insertAll (hc : cache.Consistent) (ho : order.Perm cache.identities) :
    (index.insertAll order).uuidForKey = cache.override index.uuidForKey := by
  funext key
  ext uuid
  rw [uuidForKey_insertAll_iff ((ho.map _).nodup_iff.mpr hc.nodup_fst_identities),
    RefCache.override_eq_some_iff hc, ho.mem_iff, (ho.map _).mem_iff,
    hc.getByKey?_eq_none_iff_not_mem]

theorem Faithful.insertAll (h : index.Faithful) : (index.insertAll entries).Faithful :=
  List.foldlRecOn entries _ h fun _ h _ _ => h.insert

end MemoryIndex

end ComponentIdentity
