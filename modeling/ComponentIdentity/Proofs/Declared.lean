import Mathlib.Data.List.Induction
import Mathlib.Data.List.Nodup
import Mathlib.Data.List.Perm.Basic
import ComponentIdentity.Proofs.Lineage

/-! # Reports from lists of components

A list of components makes a report exactly if their refs are positive and
distinct and there are not too many of them. The report then declares these
components and no others, so the order of the list does not matter.
-/

namespace ComponentIdentity.Report

variable {report report' : Report} {m : Metadata} {cs cs' : List Component} {c : Component}
  {r : Ref}

theorem ext_of_component? (hm : report.metadata = report'.metadata)
    (hc : ∀ r, report.component? r = report'.component? r) : report = report' :=
  Report.ext hm (Std.ExtTreeMap.ext_getElem? hc)

@[simp]
theorem component?_empty : (empty m).component? r = none := by
  simp [empty, component?]

theorem component?_insertFresh {hz : c.ref ≠ 0} {hs : report.size < maxComponents} :
    (report.insertFresh c hz hs).component? r =
      if c.ref = r then some c else report.component? r := by
  simp [insertFresh, component?, Std.ExtTreeMap.getElem?_insert]

theorem add_eq_ok_iff :
    report.add c = .ok report' ↔
      ∃ (hz : c.ref ≠ 0) (hs : report.size < maxComponents),
        report.component? c.ref = none ∧ report' = report.insertFresh c hz hs := by
  unfold add
  split
  next hz => simp [hz]
  next hz =>
    split
    next hs =>
      by_cases hr : report.component? c.ref = none
      · have hm : c.ref ∉ report.components := by simp [mem_components_iff, hr]
        simp [hz, hs, hm, hr, eq_comm]
      · have hm : c.ref ∈ report.components := by
          rwa [mem_components_iff, ← Option.ne_none_iff_exists']
        simp [hm, hr]
    next hs => simp [hs]

theorem mem_toList_iff : c ∈ report.toList ↔ report.component? c.ref = some c := by
  simp only [toList, List.mem_map, Prod.exists, exists_eq_right,
    Std.ExtTreeMap.mem_toList_iff_getElem?_eq_some]
  constructor
  · rintro ⟨r, h⟩
    rwa [report.ref_eq h]
  · intro h
    exact ⟨c.ref, h⟩

theorem map_ref_toList : report.toList.map (·.ref) = report.components.keys := by
  rw [toList, List.map_map, ← Std.ExtTreeMap.map_fst_toList_eq_keys]
  refine List.map_congr_left ?_
  rintro ⟨r, c⟩ hm
  exact report.ref_eq (Std.ExtTreeMap.mem_toList_iff_getElem?_eq_some.mp hm)

theorem nodup_map_ref_toList : (report.toList.map (·.ref)).Nodup :=
  map_ref_toList ▸ report.components.nodup_keys

theorem length_toList : report.toList.length = report.size := by
  rw [toList, List.length_map, Std.ExtTreeMap.length_toList]
  rfl

/-- Components that one report can declare. -/
structure Declarable (cs : List Component) : Prop where
  ref_ne_zero : ∀ c ∈ cs, c.ref ≠ 0
  nodup : (cs.map (·.ref)).Nodup
  length_le : cs.length ≤ maxComponents

/-- The report has the metadata and exactly the listed components. -/
structure Declares (report : Report) (m : Metadata) (cs : List Component) : Prop where
  metadata_eq : report.metadata = m
  component?_eq_some_iff : ∀ r c, report.component? r = some c ↔ c ∈ cs ∧ c.ref = r

theorem Declarable.of_perm (h : Declarable cs) (hp : cs'.Perm cs) : Declarable cs' where
  ref_ne_zero c hc := h.ref_ne_zero c (hp.mem_iff.mp hc)
  nodup := (hp.map (·.ref)).nodup_iff.mpr h.nodup
  length_le := hp.length_eq ▸ h.length_le

theorem Declares.of_perm (h : report.Declares m cs) (hp : cs'.Perm cs) :
    report.Declares m cs' where
  metadata_eq := h.metadata_eq
  component?_eq_some_iff r c := by rw [h.component?_eq_some_iff, hp.mem_iff]

theorem declarable_toList : Declarable report.toList where
  ref_ne_zero _ hc := report.ref_ne_zero (mem_toList_iff.mp hc)
  nodup := nodup_map_ref_toList
  length_le := length_toList ▸ report.size_le

theorem declares_toList : report.Declares report.metadata report.toList where
  metadata_eq := rfl
  component?_eq_some_iff r c := by
    rw [mem_toList_iff]
    constructor
    · intro h
      have hr := ref_of_component? h
      exact ⟨hr.symm ▸ h, hr⟩
    · rintro ⟨h, rfl⟩
      exact h

theorem declarable_concat_iff :
    Declarable (cs ++ [c]) ↔
      Declarable cs ∧ c.ref ≠ 0 ∧ c.ref ∉ cs.map (·.ref) ∧ cs.length < maxComponents := by
  have hn : ((cs ++ [c]).map (·.ref)).Nodup ↔
      (cs.map (·.ref)).Nodup ∧ c.ref ∉ cs.map (·.ref) := by
    rw [List.map_append, List.map_singleton, ← List.concat_eq_append, List.nodup_concat, and_comm]
  constructor
  · rintro ⟨hz, hd, hl⟩
    obtain ⟨hd, hc⟩ := hn.mp hd
    simp only [List.length_append, List.length_singleton] at hl
    exact ⟨⟨fun d hm => hz d (by simp [hm]), hd, by omega⟩, hz c (by simp), hc, hl⟩
  · rintro ⟨⟨hz, hd, -⟩, hc, hm, hl⟩
    refine ⟨?_, hn.mpr ⟨hd, hm⟩, by rw [List.length_append, List.length_singleton]; exact hl⟩
    simpa [or_imp, forall_and] using ⟨hz, hc⟩

namespace Declares

theorem ext (h : report.Declares m cs) (h' : report'.Declares m cs) : report = report' := by
  refine ext_of_component? (h.metadata_eq.trans h'.metadata_eq.symm) fun r => ?_
  ext c
  rw [h.component?_eq_some_iff, h'.component?_eq_some_iff]

theorem component?_eq_none_iff (h : report.Declares m cs) :
    report.component? r = none ↔ r ∉ cs.map (·.ref) := by
  simp only [Option.eq_none_iff_forall_ne_some, ne_eq, h.component?_eq_some_iff, List.mem_map,
    not_exists]

theorem toList_perm (h : report.Declares m cs) (hn : (cs.map (·.ref)).Nodup) :
    report.toList.Perm cs := by
  rw [List.perm_ext_iff_of_nodup nodup_map_ref_toList.of_map hn.of_map]
  intro c
  rw [mem_toList_iff, h.component?_eq_some_iff, and_iff_left rfl]

theorem size_eq (h : report.Declares m cs) (hn : (cs.map (·.ref)).Nodup) :
    report.size = cs.length :=
  length_toList.symm.trans (h.toList_perm hn).length_eq

theorem insertFresh (h : report.Declares m cs) (hr : report.component? c.ref = none)
    {hz : c.ref ≠ 0} {hs : report.size < maxComponents} :
    (report.insertFresh c hz hs).Declares m (cs ++ [c]) where
  metadata_eq := h.metadata_eq
  component?_eq_some_iff r d := by
    rw [component?_insertFresh, List.mem_append, List.mem_singleton, or_and_right,
      ← h.component?_eq_some_iff]
    split
    next he =>
      subst he
      simp only [Option.some.injEq, hr, reduceCtorEq, false_or]
      exact ⟨fun e => ⟨e.symm, e ▸ rfl⟩, fun e => e.1.symm⟩
    next he =>
      refine ⟨.inl, ?_⟩
      rintro (hd | ⟨rfl, hd⟩)
      · exact hd
      · exact absurd hd he

end Declares

theorem ofComponents_concat :
    ofComponents m (cs ++ [c]) = ofComponents m cs >>= fun report => report.add c := by
  rw [ofComponents, List.foldlM_append]
  simp only [List.foldlM_cons, List.foldlM_nil, bind_pure]
  rfl

theorem declares_of_ofComponents (h : ofComponents m cs = .ok report) :
    Declarable cs ∧ report.Declares m cs := by
  induction cs using List.reverseRecOn generalizing report with
  | nil =>
    cases h
    exact ⟨⟨by simp, by simp, Nat.zero_le _⟩, rfl, by simp⟩
  | append_singleton cs c ih =>
    rw [ofComponents_concat, Except.bind_eq_ok_iff] at h
    obtain ⟨base, hb, hc⟩ := h
    obtain ⟨hd, hb⟩ := ih hb
    obtain ⟨hz, hs, hr, rfl⟩ := add_eq_ok_iff.mp hc
    rw [hb.size_eq hd.nodup] at hs
    rw [declarable_concat_iff]
    exact ⟨⟨hd, hz, hb.component?_eq_none_iff.mp hr, hs⟩, hb.insertFresh hr⟩

theorem exists_ofComponents (h : Declarable cs) : ∃ report, ofComponents m cs = .ok report := by
  induction cs using List.reverseRecOn with
  | nil => exact ⟨_, rfl⟩
  | append_singleton cs c ih =>
    obtain ⟨hd, hz, hn, hs⟩ := declarable_concat_iff.mp h
    obtain ⟨base, hb⟩ := ih hd
    have hdecl := (declares_of_ofComponents hb).2
    rw [← hdecl.size_eq hd.nodup] at hs
    refine ⟨base.insertFresh c hz hs, ?_⟩
    rw [ofComponents_concat, Except.bind_eq_ok_iff]
    exact ⟨base, hb, add_eq_ok_iff.mpr ⟨hz, hs, hdecl.component?_eq_none_iff.mpr hn, rfl⟩⟩

theorem ofComponents_eq_ok_iff :
    ofComponents m cs = .ok report ↔ Declarable cs ∧ report.Declares m cs := by
  constructor
  · exact declares_of_ofComponents
  · rintro ⟨hd, hr⟩
    obtain ⟨report', h⟩ := exists_ofComponents hd
    rw [h, (declares_of_ofComponents h).2.ext hr]

theorem ofComponents_eq_error (h : ¬ Declarable cs) :
    ∃ fault, ofComponents m cs = .error fault := by
  cases he : ofComponents m cs with
  | error fault => exact ⟨fault, rfl⟩
  | ok report => exact absurd (declares_of_ofComponents he).1 h

/-- The components of a report, in any order, make the report again. -/
theorem ofComponents_of_perm (hp : cs.Perm report.toList) :
    ofComponents report.metadata cs = .ok report :=
  ofComponents_eq_ok_iff.mpr ⟨declarable_toList.of_perm hp, declares_toList.of_perm hp⟩

end ComponentIdentity.Report
