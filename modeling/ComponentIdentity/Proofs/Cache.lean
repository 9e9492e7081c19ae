import Mathlib.Data.List.Nodup
import Mathlib.Data.List.Perm.Basic
import ComponentIdentity.RefCache

/-! # Consistent caches

However a cache was filled, its three collections agree: the owner of a key is
the ref under which a component with that key is stored, the identifiers given
out are those of the stored components, and no two of these share a key or an
identifier.
-/

namespace ComponentIdentity.RefCache

variable {cache cache' : RefCache} {r r' : Ref} {c c' : ResolvedComponent} {key uuid : String}

@[simp]
theorem get?_empty : empty.get? r = none := by simp [empty, get?]

@[simp]
theorem toList_empty : empty.toList = [] := Std.ExtTreeMap.toList_eq_nil_iff.mpr rfl

@[simp]
theorem get?_insertFresh :
    (cache.insertFresh r c).get? r' = if r = r' then some c else cache.get? r' := by
  simp [insertFresh, get?, Std.ExtTreeMap.getElem?_insert]

theorem get?_insertFresh_eq_some_iff (hr : cache.get? r = none) :
    (cache.insertFresh r c).get? r' = some c' ↔ cache.get? r' = some c' ∨ r = r' ∧ c = c' := by
  rw [get?_insertFresh]
  split
  next h => subst h; simp [hr]
  next h => simp [h]

@[simp]
theorem byKey_insertFresh :
    (cache.insertFresh r c).byKey[key]? = if c.key = key then some r else cache.byKey[key]? := by
  simp [insertFresh, Std.ExtTreeMap.getElem?_insert]

@[simp]
theorem containsUuid_insertFresh :
    (cache.insertFresh r c).containsUuid uuid = true ↔
      c.uuid = uuid ∨ cache.containsUuid uuid = true := by
  simp [insertFresh, containsUuid, Std.ExtTreeSet.contains_insert]

theorem mem_byRef_iff : r ∈ cache.byRef ↔ cache.get? r ≠ none := by
  rw [Std.ExtTreeMap.mem_iff_isSome_getElem?, ← Option.isSome_iff_ne_none]
  rfl

theorem put_eq_ok_iff :
    cache.put r c = .ok cache' ↔
      cache.get? r = none ∧ cache.byKey[c.key]? = none ∧ cache.containsUuid c.uuid = false ∧
        cache' = cache.insertFresh r c := by
  unfold put
  by_cases h : cache.get? r = none
  · rw [if_neg (by simp [mem_byRef_iff, h])]
    rcases cache.byKey[c.key]? with _ | owner
    · cases hu : cache.containsUuid c.uuid <;> simp [h, eq_comm]
    · simp
  · simp [mem_byRef_iff, h]

theorem put_eq_error {e : Error} (h : cache.put r c = .error e) :
    e = .duplicateRef r ∨
      (∃ owner, cache.byKey[c.key]? = some owner ∧ e = .malformedReport (.sameKey owner r c.key)) ∨
      cache.containsUuid c.uuid = true ∧ e = .corruptIndex c.key c.uuid := by
  unfold put at h
  split at h
  · cases h
    exact .inl rfl
  · split at h
    next owner hk => cases h; exact .inr (.inl ⟨owner, hk, rfl⟩)
    · split at h
      next hu => cases h; exact .inr (.inr ⟨hu, rfl⟩)
      · cases h

/-- The three collections of a cache agree. -/
structure Consistent (cache : RefCache) : Prop where
  byKey_eq_some_iff : ∀ key r,
    cache.byKey[key]? = some r ↔ ∃ c, cache.get? r = some c ∧ c.key = key
  containsUuid_iff : ∀ uuid,
    cache.containsUuid uuid = true ↔ ∃ r c, cache.get? r = some c ∧ c.uuid = uuid
  eq_of_uuid_eq : ∀ {r r' c c'}, cache.get? r = some c → cache.get? r' = some c' →
    c.uuid = c'.uuid → r = r'

theorem consistent_empty : Consistent empty where
  byKey_eq_some_iff := by simp [empty, get?]
  containsUuid_iff := by simp [empty, get?, containsUuid]
  eq_of_uuid_eq := by simp

namespace Consistent

variable (hc : Consistent cache)
include hc

theorem eq_of_key_eq (h : cache.get? r = some c) (h' : cache.get? r' = some c')
    (hk : c.key = c'.key) : r = r' := by
  have := (hc.byKey_eq_some_iff c.key r).mpr ⟨c, h, rfl⟩
  have := (hc.byKey_eq_some_iff c.key r').mpr ⟨c', h', hk.symm⟩
  simp_all

theorem getByKey?_eq_some_iff :
    cache.getByKey? key = some c ↔ ∃ r, cache.get? r = some c ∧ c.key = key := by
  simp only [getByKey?, Option.bind_eq_some_iff, hc.byKey_eq_some_iff]
  constructor
  · rintro ⟨r, ⟨d, hd, hk⟩, h⟩
    cases hd.symm.trans h
    exact ⟨r, h, hk⟩
  · rintro ⟨r, h, hk⟩; exact ⟨r, ⟨c, h, hk⟩, h⟩

theorem getByKey?_eq_none_iff :
    cache.getByKey? key = none ↔ ∀ r c, cache.get? r = some c → c.key ≠ key := by
  rw [Option.eq_none_iff_forall_ne_some]
  constructor
  · intro h r c hr hk; exact h c (hc.getByKey?_eq_some_iff.mpr ⟨r, hr, hk⟩)
  · intro h c hk
    obtain ⟨r, hr, hk⟩ := hc.getByKey?_eq_some_iff.mp hk
    exact h r c hr hk

theorem byKey_eq_none_iff :
    cache.byKey[key]? = none ↔ ∀ r c, cache.get? r = some c → c.key ≠ key := by
  rw [Option.eq_none_iff_forall_ne_some]
  constructor
  · intro h r c hr hk; exact h r ((hc.byKey_eq_some_iff key r).mpr ⟨c, hr, hk⟩)
  · intro h r ho
    obtain ⟨c, hr, hk⟩ := (hc.byKey_eq_some_iff key r).mp ho
    exact h r c hr hk

theorem containsUuid_eq_false_iff :
    cache.containsUuid uuid = false ↔ ∀ r c, cache.get? r = some c → c.uuid ≠ uuid := by
  rw [← Bool.not_eq_true, hc.containsUuid_iff]
  simp only [not_exists, not_and, ne_eq]

theorem put_eq_ok (hr : cache.get? r = none) (hk : cache.getByKey? c.key = none)
    (hu : cache.containsUuid c.uuid = false) : cache.put r c = .ok (cache.insertFresh r c) := by
  have hfree := hc.byKey_eq_none_iff.mpr (hc.getByKey?_eq_none_iff.mp hk)
  exact put_eq_ok_iff.mpr ⟨hr, hfree, hu, rfl⟩

theorem insertFresh (hr : cache.get? r = none) (hk : cache.getByKey? c.key = none)
    (hu : cache.containsUuid c.uuid = false) : Consistent (cache.insertFresh r c) where
  byKey_eq_some_iff key x := by
    rw [byKey_insertFresh, get?_insertFresh]
    split
    next hck =>
      subst hck
      split
      next hx => subst hx; simp
      next hx =>
        simp only [Option.some.injEq, hx, false_iff, not_exists, not_and]
        exact fun d hd => hc.getByKey?_eq_none_iff.mp hk x d hd
    next hck =>
      rw [hc.byKey_eq_some_iff]
      split
      next hx => subst hx; simp [hr, hck]
      · rfl
  containsUuid_iff uuid := by
    rw [containsUuid_insertFresh, hc.containsUuid_iff]
    constructor
    · rintro (rfl | ⟨x, d, hd, rfl⟩)
      · exact ⟨r, c, by simp, rfl⟩
      · exact ⟨x, d, (get?_insertFresh_eq_some_iff hr).mpr (.inl hd), rfl⟩
    · rintro ⟨x, d, hd, rfl⟩
      rcases (get?_insertFresh_eq_some_iff hr).mp hd with hd | ⟨-, rfl⟩
      · exact .inr ⟨x, d, hd, rfl⟩
      · exact .inl rfl
  eq_of_uuid_eq {x y d d'} hd hd' h := by
    have hu := hc.containsUuid_eq_false_iff.mp hu
    rcases (get?_insertFresh_eq_some_iff hr).mp hd with hd | ⟨rfl, rfl⟩ <;>
      rcases (get?_insertFresh_eq_some_iff hr).mp hd' with hd' | ⟨rfl, rfl⟩
    · exact hc.eq_of_uuid_eq hd hd' h
    · exact absurd h (hu _ _ hd)
    · exact absurd h.symm (hu _ _ hd')
    · rfl

theorem put (h : cache.put r c = .ok cache') : Consistent cache' := by
  obtain ⟨hr, hk, hu, rfl⟩ := put_eq_ok_iff.mp h
  exact hc.insertFresh hr (by simp [getByKey?, hk]) hu

end Consistent

/-- Puts a component, or leaves the cache as it is if it refuses. -/
def offer (cache : RefCache) (p : Ref × ResolvedComponent) : RefCache :=
  match cache.put p.1 p.2 with
  | .ok cache => cache
  | .error _ => cache

def ofPuts (puts : List (Ref × ResolvedComponent)) : RefCache := puts.foldl offer empty

theorem Consistent.offer (hc : Consistent cache) (p : Ref × ResolvedComponent) :
    Consistent (cache.offer p) := by
  unfold RefCache.offer
  split
  next h => exact hc.put h
  · exact hc

theorem consistent_ofPuts (puts : List (Ref × ResolvedComponent)) : Consistent (ofPuts puts) :=
  List.foldlRecOn puts _ consistent_empty fun _ hc p _ => hc.offer p

theorem mem_toList_iff : (r, c) ∈ cache.toList ↔ cache.get? r = some c :=
  Std.ExtTreeMap.mem_toList_iff_getElem?_eq_some

theorem nodup_toList : cache.toList.Nodup := by
  have h := cache.byRef.nodup_keys
  rw [← Std.ExtTreeMap.map_fst_toList_eq_keys] at h
  exact h.of_map _

theorem pairwise_toList : cache.toList.Pairwise fun p q => p.1 < q.1 := by
  have h := cache.byRef.ordered_keys_toList
  exact h.imp fun hlt => compareOfLessAndEq_eq_lt.mp hlt

theorem toList_insertFresh_perm (hr : cache.get? r = none) :
    (cache.insertFresh r c).toList.Perm ((r, c) :: cache.toList) := by
  have hn : (r, c) ∉ cache.toList := by simp [mem_toList_iff, hr]
  rw [List.perm_ext_iff_of_nodup nodup_toList (List.nodup_cons.mpr ⟨hn, nodup_toList⟩)]
  rintro ⟨x, d⟩
  rw [mem_toList_iff, get?_insertFresh_eq_some_iff hr, List.mem_cons, mem_toList_iff, or_comm,
    Prod.mk.injEq, eq_comm, eq_comm (a := c)]

namespace Consistent

variable (hc : Consistent cache)
include hc

theorem nodup_keys : (cache.toList.map (·.2.key)).Nodup := by
  refine nodup_toList.map_on ?_
  rintro ⟨r, c⟩ hr ⟨r', c'⟩ hr' h
  rw [mem_toList_iff] at hr hr'
  cases hc.eq_of_key_eq hr hr' h
  cases hr.symm.trans hr'
  rfl

theorem nodup_uuids : (cache.toList.map (·.2.uuid)).Nodup := by
  refine nodup_toList.map_on ?_
  rintro ⟨r, c⟩ hr ⟨r', c'⟩ hr' h
  rw [mem_toList_iff] at hr hr'
  cases hc.eq_of_uuid_eq hr hr' h
  cases hr.symm.trans hr'
  rfl

end Consistent

theorem length_toList : cache.toList.length = cache.size := Std.ExtTreeMap.length_toList

theorem size_insertFresh (hr : cache.get? r = none) :
    (cache.insertFresh r c).size = cache.size + 1 := by
  rw [← length_toList, (toList_insertFresh_perm hr).length_eq, List.length_cons, length_toList]

end ComponentIdentity.RefCache
