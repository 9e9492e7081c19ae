import ComponentIdentity.Proofs.Rounds

/-! # Runs that are refused and runs that are recorded

The index that is stored refuses a run that takes an identifier from a key which
the run does not have, and names the first component that does so. Every other
run overrides what was stored, however it moves the identifiers of its own keys,
and recording it again finds nothing to change.
-/

namespace ComponentIdentity

namespace IdentityTables

variable {tables : IdentityTables} {cache : RefCache} {changes : List IdentityChange}
  {r r' : Ref} {c c' : ResolvedComponent} {cs : List ResolvedComponent} {e : Error}
  {seen seen' : Std.ExtTreeSet String} {uuid : String}

/-- The identifier of the component is stored for a key that the run does not have. -/
def Takes (tables : IdentityTables) (cache : RefCache) (c : ResolvedComponent) : Prop :=
  ∃ owner, tables.uuidForKey owner = some c.uuid ∧ cache.getByKey? owner = none

/-- The component with the least ref among those that take their identifier. -/
structure FirstTaker (tables : IdentityTables) (cache : RefCache) (r : Ref)
    (c : ResolvedComponent) : Prop where
  get?_eq : cache.get? r = some c
  takes : tables.Takes cache c
  le : ∀ r' c', cache.get? r' = some c' → tables.Takes cache c' → r ≤ r'

theorem FirstTaker.eq (h : tables.FirstTaker cache r c) (h' : tables.FirstTaker cache r' c') :
    c = c' := by
  obtain rfl := UInt32.le_antisymm (h.le r' c' h'.get?_eq h'.takes) (h'.le r c h.get?_eq h.takes)
  exact Option.some.inj (h.get?_eq.symm.trans h'.get?_eq)

theorem exists_firstTaker_of_find? (hi : tables.Inverse) (hc : cache.Consistent)
    (h : (components cache).find? (tables.keptByOther cache) = some c) :
    ∃ r, tables.FirstTaker cache r c := by
  rw [components, List.find?_map, Option.map_eq_some_iff] at h
  obtain ⟨⟨r, c⟩, hf, rfl⟩ := h
  obtain ⟨hk, pre, post, hl, hpre⟩ := List.find?_eq_some_iff_append.mp hf
  have hr : cache.get? r = some c := RefCache.mem_toList_iff.mp (hl ▸ by simp)
  refine ⟨r, hr, (keptByOther_iff hi hc hr).mp hk, fun r' c' hr' ht' => ?_⟩
  have hpw : cache.toList.Pairwise fun p q => p.1 < q.1 := RefCache.pairwise_toList
  have hm := RefCache.mem_toList_iff.mpr hr'
  rw [hl] at hpw hm
  rcases List.mem_append.mp hm with hm | hm
  · -- what stands before the first one is kept by no other key
    have hk' := hpre _ hm
    simp [(keptByOther_iff hi hc hr').mpr ht'] at hk'
  · rcases List.mem_cons.mp hm with he | hm
    · cases he
      exact UInt32.le_refl r
    · exact UInt32.le_of_lt ((List.pairwise_cons.mp (List.pairwise_append.mp hpw).2.1).1 _ hm)

/-- A run is refused for the first component that takes its identifier. -/
theorem changes_eq_error_iff (hi : tables.Inverse) (hc : cache.Consistent) :
    tables.changes cache = .error e ↔
      ∃ r c, tables.FirstTaker cache r c ∧ e = .corruptIndex c.key c.uuid := by
  rw [changes_eq hc]
  cases hf : (components cache).find? (tables.keptByOther cache) with
  | some c =>
    obtain ⟨r, hfirst⟩ := exists_firstTaker_of_find? hi hc hf
    constructor
    · rintro ⟨⟩
      exact ⟨r, c, hfirst, rfl⟩
    · rintro ⟨r', c', hfirst', rfl⟩
      rw [hfirst.eq hfirst']
  | none =>
    simp only [reduceCtorEq, false_iff]
    rintro ⟨r, c, hfirst, -⟩
    refine List.find?_eq_none.mp hf c (mem_components_iff.mpr ⟨r, hfirst.get?_eq⟩) ?_
    exact (keptByOther_iff hi hc hfirst.get?_eq).mpr hfirst.takes

theorem exists_changes_eq_error_iff (hi : tables.Inverse) (hc : cache.Consistent) :
    (∃ e, tables.changes cache = .error e) ↔
      ∃ r c, cache.get? r = some c ∧ tables.Takes cache c := by
  constructor
  · rintro ⟨e, he⟩
    obtain ⟨r, c, hf, -⟩ := (changes_eq_error_iff hi hc).mp he
    exact ⟨r, c, hf.get?_eq, hf.takes⟩
  · rintro ⟨r, c, hr, owner, ho, hn⟩
    cases hch : tables.changes cache with
    | error e => exact ⟨e, rfl⟩
    | ok changes =>
      have hun := (exists_changes_iff hi hc).mp ⟨changes, hch⟩
      obtain ⟨o, hs⟩ := (RefCache.unshared_override_iff hc hi.unshared).mp hun r c owner hr ho
      cases hn.symm.trans hs

theorem not_takes_of_perm (hi : tables.Inverse) (hc : cache.Consistent)
    (hp : ((components cache).map fun c => some c.uuid).Perm
      ((components cache).map fun c => tables.uuidForKey c.key))
    (hr : cache.get? r = some c) : ¬ tables.Takes cache c := by
  rintro ⟨owner, ho, hn⟩
  have hm := hp.mem_iff.mp (List.mem_map_of_mem (mem_components_iff.mpr ⟨r, hr⟩))
  obtain ⟨c', hm', hu⟩ := List.mem_map.mp hm
  obtain ⟨r', hr'⟩ := mem_components_iff.mp hm'
  exact hc.getByKey?_eq_none_iff.mp hn r' c' hr' (hi.eq_of_uuid_eq hu ho)

theorem mem_of_foldlM_accept (h : cs.foldlM (tables.accept cache) seen = .ok seen')
    (hm : uuid ∈ seen') : uuid ∈ seen ∨ uuid ∈ cs.map (·.uuid) := by
  induction cs generalizing seen with
  | nil =>
    cases h
    exact .inl hm
  | cons c cs ih =>
    rw [List.foldlM_cons, accept_eq, Except.bind_eq_ok_iff] at h
    obtain ⟨seen₁, h₁, h⟩ := h
    split at h₁
    · cases h₁
    · cases h₁
      rcases ih h with hs | hs
      · rw [Std.ExtTreeSet.mem_insert, Std.LawfulEqCmp.compare_eq_iff_eq] at hs
        rcases hs with rfl | hs
        · exact .inr List.mem_cons_self
        · exact .inl hs
      · exact .inr (List.mem_cons_of_mem _ hs)

/-- No component is met whose identifier an earlier one of the run has. -/
theorem not_mem_of_foldlM_accept (hc : cache.Consistent) {pre post : List ResolvedComponent}
    (hl : components cache = pre ++ c :: post)
    (h : pre.foldlM (tables.accept cache) ∅ = .ok seen) : c.uuid ∉ seen := by
  intro hm
  have hnd := nodup_components_uuid hc
  rw [hl, List.map_append, List.map_cons] at hnd
  rcases mem_of_foldlM_accept h hm with he | hpre
  · exact Std.ExtTreeSet.not_mem_empty he
  · exact (List.nodup_append.mp hnd).2.2 _ hpre _ List.mem_cons_self rfl

end IdentityTables

namespace Workspace

variable {w w' : Workspace} {path : Path} {index : OpenIndex} {cache : RefCache}
  {changes : List IdentityChange} {e : Error} {n : Nat}

theorem fst_record_eq_error_iff :
    (w.record index cache).1 = .error e ↔ index.tables.changes cache = .error e := by
  rw [record, Files.record]
  cases index.tables.changes cache with
  | error e' => simp [bind, Except.bind]
  | ok changes => simp [bind, Except.bind, pure, Except.pure]

theorem Open.record_of_stored (ho : w.Open index) (hc : index.tables.changes cache = .ok []) :
    w.record index cache = (.ok 0, w) := by
  have hr : w.files.record index cache = .ok (index, 0, w.files) := by
    rw [Files.record, hc]
    rfl
  rw [record, hr]
  simp only [ho.inUse, if_true, ← ho.index_eq]

/-- What a record of an open index does: it is refused for the first component that takes its
identifier, with everything left as it was, and otherwise the entries, in memory and on disk, are
overridden by the run. -/
structure Records (w : Workspace) (index : OpenIndex) (cache : RefCache) : Prop where
  refused_iff : (∃ e, (w.record index cache).1 = .error e) ↔
    ∃ r c, cache.get? r = some c ∧ index.tables.Takes cache c
  refused_iff_shared : (∃ e, (w.record index cache).1 = .error e) ↔
    ¬ Unshared (cache.override index.tables.uuidForKey)
  refused : ∀ e, (w.record index cache).1 = .error e → (w.record index cache).2 = w ∧
    ∃ r c, index.tables.FirstTaker cache r c ∧ e = .corruptIndex c.key c.uuid
  accepted : ∀ n w', w.record index cache = (.ok n, w') →
    n = (IdentityTables.components cache).countP
      (fun c => decide (index.tables.uuidForKey c.key ≠ some c.uuid)) ∧
    ∃ tables, tables.Exact ∧ tables.uuidForKey = cache.override index.tables.uuidForKey ∧
      w'.Open ⟨index.location, tables⟩ ∧
      w'.record ⟨index.location, tables⟩ cache = (.ok 0, w')
  permuted : ((IdentityTables.components cache).map fun c => some c.uuid).Perm
      ((IdentityTables.components cache).map fun c => index.tables.uuidForKey c.key) →
    ∃ n w', w.record index cache = (.ok n, w')
  unseen : ∀ pre c post seen, IdentityTables.components cache = pre ++ c :: post →
    pre.foldlM (index.tables.accept cache) ∅ = .ok seen → c.uuid ∉ seen

theorem Serves.record_changes (h : Serves path w index) (ho : w.Open index)
    (hk : cache.Consistent) (hc : index.tables.changes cache = .ok changes) :
    ∃ w', w.record index cache = (.ok changes.length, w') ∧
      ∃ tables, tables.Exact ∧ tables.uuidForKey = cache.override index.tables.uuidForKey ∧
        w'.Open ⟨index.location, tables⟩ ∧
        w'.record ⟨index.location, tables⟩ cache = (.ok 0, w') := by
  obtain ⟨w', hr, ho', hs'⟩ := h.record ho hk hc
  have hov := IdentityTables.uuidForKey_apply_changes hk hc
  refine ⟨w', hr, _, hs'.inverse.exact, hov, ho', ho'.record_of_stored ?_⟩
  refine IdentityTables.changes_of_stored hs'.inverse hk fun r c hrc => ?_
  rw [hov]
  exact RefCache.override_of_get? hk hrc

theorem Serves.records (h : Serves path w index) (ho : w.Open index) (hk : cache.Consistent) :
    w.Records index cache where
  refused_iff := by
    simp only [fst_record_eq_error_iff]
    exact IdentityTables.exists_changes_eq_error_iff h.inverse hk
  refused_iff_shared := by
    simp only [fst_record_eq_error_iff, ← IdentityTables.exists_changes_iff h.inverse hk]
    cases index.tables.changes cache <;> simp
  refused e he := by
    rw [fst_record_eq_error_iff] at he
    refine ⟨?_, (IdentityTables.changes_eq_error_iff h.inverse hk).mp he⟩
    rw [record_of_error he]
  accepted n w' hr := by
    cases hc : index.tables.changes cache with
    | error e =>
      rw [record_of_error hc] at hr
      cases hr
    | ok changes =>
      obtain ⟨w₁, hr₁, hrest⟩ := h.record_changes ho hk hc
      cases hr.symm.trans hr₁
      refine ⟨?_, hrest⟩
      rw [IdentityTables.eq_filterMap_of_changes hk hc, IdentityTables.filterMap_change?,
        List.length_map, List.countP_eq_length_filter]
  permuted hp := by
    cases hc : index.tables.changes cache with
    | error e =>
      obtain ⟨r, c, hf, -⟩ := (IdentityTables.changes_eq_error_iff h.inverse hk).mp hc
      exact absurd hf.takes (IdentityTables.not_takes_of_perm h.inverse hk hp hf.get?_eq)
    | ok changes =>
      obtain ⟨w', hr, -⟩ := h.record_changes ho hk hc
      exact ⟨_, w', hr⟩
  unseen pre c post seen hl hs := IdentityTables.not_mem_of_foldlM_accept hk hl hs

/-- Whatever was called before on a database that started empty. -/
theorem records_of_run (h : StartsEmpty path w) (calls : List Call)
    (hi : (w.run path calls).index = some index) (puts : List (Ref × ResolvedComponent)) :
    (w.run path calls).Records index (RefCache.ofPuts puts) := by
  obtain ⟨_, hs⟩ := h.serves
  obtain ⟨index', hs⟩ := hs.run calls
  obtain ⟨rfl, -⟩ := hs.reopens.eq_of_open index hi
  rcases hs.open_or_closed with ho | hc
  · exact hs.records ho (RefCache.consistent_ofPuts puts)
  · cases hi.symm.trans hc.index_eq

/-- Each key hands its identifier on, the last one to a key that is new. -/
theorem records_rotation :
    StartsEmpty "index" bare ∧ ∃ index, (bare.run "index" swap).index = some index ∧
      index.tables.entries = [("P", "v"), ("P:a", "u")] ∧
      (bare.run "index" swap).Records index
        (RefCache.ofPuts [(1, ⟨1, "P", "w"⟩), (2, ⟨2, "P:a", "v"⟩), (3, ⟨3, "P:b", "u"⟩)]) := by
  have he : (bare.run "index" swap).index.map (·.tables.entries) =
      some [("P", "v"), ("P:a", "u")] := by decide +kernel
  obtain ⟨index, hi, he⟩ := Option.map_eq_some_iff.mp he
  exact ⟨startsEmpty_bare, index, hi, he, records_of_run startsEmpty_bare swap hi _⟩

end Workspace

end ComponentIdentity
