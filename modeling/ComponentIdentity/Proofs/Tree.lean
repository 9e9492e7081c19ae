import Mathlib.Data.List.Nodup
import Mathlib.Data.List.Perm.Subperm
import ComponentIdentity.Proofs.Walk

/-! # Reports that are trees

Two ways down may lead to one ref: through a child that is listed twice, through
two components that list it, or around a cycle. A walk that has nothing left has
met none of these, and on a report without them no walk meets a ref twice.
-/

namespace ComponentIdentity

namespace Report

variable {report : Report} {way way' : List Nat} {above above' : List Component}
  {r r' p p' : Ref} {c c' : Component}

/-- The positions in the child lists on a way down from the root to a ref, the last first. -/
inductive Way (report : Report) : List Nat → Ref → Prop where
  | root : Way report [] report.root
  | child {way : List Nat} {parent child : Ref} {c : Component} {i : Nat} :
      Way report way parent → report.component? parent = some c → c.children[i]? = some child →
      Way report (i :: way) child

/-- No two ways lead to the same ref. -/
def ReachedOnce (report : Report) : Prop :=
  ∀ way way' r, report.Way way r → report.Way way' r → way = way'

/-- The root is nobody's child, no child is listed twice and none has two parents. -/
structure IsTree (report : Report) : Prop where
  root_not_mem : ∀ p c, report.Reachable p → report.component? p = some c →
    report.root ∉ c.children
  nodup : ∀ p c, report.Reachable p → report.component? p = some c → c.children.Nodup
  parent_eq : ∀ p p' r, report.Reachable p → report.Reachable p' → report.IsChild p r →
    report.IsChild p' r → p = p'

theorem Way.reachable (h : report.Way way r) : report.Reachable r := by
  induction h with
  | root => exact .refl
  | child _ hc hi ih => exact .tail ih ⟨_, hc, List.mem_of_getElem? hi⟩

theorem exists_way (h : report.Reachable r) : ∃ way, report.Way way r := by
  induction h with
  | refl => exact ⟨[], .root⟩
  | tail _ hc ih =>
    obtain ⟨way, hw⟩ := ih
    obtain ⟨c, hc, hm⟩ := hc
    obtain ⟨i, hi⟩ := List.getElem?_of_mem hm
    exact ⟨i :: way, .child hw hc hi⟩

theorem Way.ref_eq (h : report.Way way r) (h' : report.Way way r') : r = r' := by
  induction h generalizing r' with
  | root => cases h'; rfl
  | child _ hc hi ih =>
    cases h' with
    | child hw hc' hi' =>
      cases ih hw
      cases hc.symm.trans hc'
      exact Option.some.inj (hi.symm.trans hi')

theorem ReachedOnce.isTree (h : report.ReachedOnce) : report.IsTree where
  root_not_mem p c hp hc hm := by
    obtain ⟨way, hw⟩ := exists_way hp
    obtain ⟨i, hi⟩ := List.getElem?_of_mem hm
    cases h _ _ _ .root (.child hw hc hi)
  nodup p c hp hc := by
    obtain ⟨way, hw⟩ := exists_way hp
    rw [List.nodup_iff_getElem?_ne_getElem?]
    intro i j hij hj he
    have hlt : i < c.children.length := by omega
    have hi : c.children[i]? = some c.children[i] := List.getElem?_eq_getElem hlt
    cases h _ _ _ (.child hw hc hi) (.child hw hc (he ▸ hi))
    omega
  parent_eq p p' r hp hp' hr hr' := by
    obtain ⟨way, hw⟩ := exists_way hp
    obtain ⟨way', hw'⟩ := exists_way hp'
    obtain ⟨c, hc, hm⟩ := hr
    obtain ⟨c', hc', hm'⟩ := hr'
    obtain ⟨i, hi⟩ := List.getElem?_of_mem hm
    obtain ⟨j, hj⟩ := List.getElem?_of_mem hm'
    cases h _ _ _ (.child hw hc hi) (.child hw' hc' hj)
    exact hw.ref_eq hw'

theorem IsTree.reachedOnce (h : report.IsTree) : report.ReachedOnce := by
  intro way way' r hw
  induction hw generalizing way' with
  | root =>
    intro hw'
    generalize hr : report.root = r at hw'
    cases hw' with
    | root => rfl
    | child hp hc hi =>
      exact absurd (hr ▸ List.mem_of_getElem? hi) (h.root_not_mem _ _ hp.reachable hc)
  | child hp hc hi ih =>
    intro hw'
    have hm := List.mem_of_getElem? hi
    cases hw' with
    | root => exact absurd hm (h.root_not_mem _ _ hp.reachable hc)
    | child hp' hc' hi' =>
      cases h.parent_eq _ _ _ hp.reachable hp'.reachable ⟨_, hc, hm⟩
        ⟨_, hc', List.mem_of_getElem? hi'⟩
      cases hc.symm.trans hc'
      cases ih _ hp'
      obtain ⟨hlt, -⟩ := List.getElem?_eq_some_iff.mp hi
      cases (List.getElem?_inj hlt (h.nodup _ _ hp.reachable hc)).mp (hi.trans hi'.symm)
      rfl

theorem reachedOnce_iff_isTree : report.ReachedOnce ↔ report.IsTree :=
  ⟨ReachedOnce.isTree, IsTree.reachedOnce⟩

/-- In a tree the components above a ref are determined. -/
theorem IsTree.above_eq (h : report.IsTree) (hl : report.Lineage above r)
    (hl' : report.Lineage above' r) : above = above' := by
  induction hl generalizing above' with
  | root =>
    generalize hr : report.root = r at hl'
    cases hl' with
    | root => rfl
    | child hp hc hm => exact absurd (hr ▸ hm) (h.root_not_mem _ _ hp.reachable hc)
  | child hp hc hm ih =>
    cases hl' with
    | root => exact absurd hm (h.root_not_mem _ _ hp.reachable hc)
    | child hp' hc' hm' =>
      cases h.parent_eq _ _ _ hp.reachable hp'.reachable ⟨_, hc, hm⟩ ⟨_, hc', hm'⟩
      cases hc.symm.trans hc'
      rw [ih hp']

end Report

theorem Trail.map_ref_below {t : Trail} {c : Component} :
    (t.below c).map Trail.ref = c.children := by
  simp [below, Function.comp_def]

namespace Walk

variable {report : Report} {w w' : Walk} {c : Component} {frontier done rest : List Trail}
  {t : Trail} {fault : ReportFault}

/-- Each trail hangs below one behind the walk, and those below a visited component are all
there, as often as they are listed. -/
structure Spread (report : Report) (frontier done : List Trail) : Prop where
  parent_mem : ∀ u ∈ frontier ++ done, ∀ c above, u.above = c :: above → ⟨above, c.ref⟩ ∈ done
  below_subperm : ∀ t ∈ done, ∀ c, report.component? t.ref = some c →
    (t.below c).Subperm (frontier ++ done)

theorem spread_start : Spread report [⟨[], report.root⟩] [] where
  parent_mem := by simp
  below_subperm := by simp

theorem perm_visit {below : List Trail} :
    ((below ++ rest) ++ t :: done).Perm (below ++ ((t :: rest) ++ done)) := by
  rw [List.append_assoc]
  exact List.perm_middle.append_left below

theorem Spread.visit (h : Spread report (t :: rest) done)
    (hc : report.component? t.ref = some c) : Spread report (t.below c ++ rest) (t :: done) where
  parent_mem u hu d above hd := by
    rcases List.mem_append.mp (perm_visit.mem_iff.mp hu) with hu | hu
    · rw [(Trail.mem_below_iff.mp hu).1] at hd
      cases hd
      rw [Report.ref_of_component? hc]
      exact List.mem_cons_self
    · exact List.mem_cons_of_mem _ (h.parent_mem u hu d above hd)
  below_subperm u hu d hd := by
    refine List.Subperm.trans ?_ perm_visit.symm.subperm
    rcases List.mem_cons.mp hu with rfl | hu
    · cases hc.symm.trans hd
      exact (List.sublist_append_left _ _).subperm
    · exact (h.below_subperm u hu d hd).trans (List.sublist_append_right _ _).subperm

namespace Follows

theorem isTree (h : Follows report w [] done) (hs : Spread report [] done) : report.IsTree := by
  have hunique : ∀ {above above' : List Component} {r : Ref}, report.Lineage above r →
      report.Lineage above' r → above = above' := by
    intro above above' r hl hl'
    have := List.inj_on_of_nodup_map h.nodup (h.mem_of_lineage hl) (h.mem_of_lineage hl') rfl
    exact congrArg Trail.above this
  refine ⟨?_, ?_, ?_⟩
  · intro p c hp hc hm
    obtain ⟨above, hl⟩ := Report.reachable_iff_exists_lineage.mp hp
    cases hunique .root (.child hl hc hm)
  · intro p c hp hc
    obtain ⟨above, hl⟩ := Report.reachable_iff_exists_lineage.mp hp
    obtain ⟨l, hperm, hsub⟩ := hs.below_subperm _ (h.mem_of_lineage hl) c hc
    rw [← Trail.map_ref_below, ← (hperm.map Trail.ref).nodup_iff]
    exact h.nodup.sublist (hsub.map Trail.ref)
  · rintro p p' r hp hp' ⟨c, hc, hm⟩ ⟨c', hc', hm'⟩
    obtain ⟨above, hl⟩ := Report.reachable_iff_exists_lineage.mp hp
    obtain ⟨above', hl'⟩ := Report.reachable_iff_exists_lineage.mp hp'
    cases hunique (.child hl hc hm) (.child hl' hc' hm')
    exact (Report.ref_of_component? hc).symm.trans (Report.ref_of_component? hc')

/-- On a tree no ref is met twice. -/
theorem nodup_visit (h : Follows report w (t :: rest) done)
    (hs : Spread report (t :: rest) done) (ht : report.IsTree)
    (hn : (((t :: rest) ++ done).map Trail.ref).Nodup)
    (hc : report.component? t.ref = some c) :
    (((t.below c ++ rest) ++ t :: done).map Trail.ref).Nodup := by
  have hl := h.lineage t (by simp)
  rw [(perm_visit.map Trail.ref).nodup_iff, List.map_append, Trail.map_ref_below,
    List.nodup_append']
  refine ⟨ht.nodup _ _ hl.reachable hc, hn, ?_⟩
  intro child hm hmem
  obtain ⟨u, hu, rfl⟩ := List.mem_map.mp hmem
  -- A trail to the child comes from `t`, but `t` itself is still before the walk.
  have ha := ht.above_eq (h.lineage u hu) (.child hl hc hm)
  have hmem := hs.parent_mem u hu c t.above ha
  rw [Report.ref_of_component? hc] at hmem
  simp only [List.map_cons, List.cons_append, List.nodup_cons, List.map_append] at hn
  exact hn.1 (List.mem_append_right _ (List.mem_map_of_mem hmem))

theorem next_ne_error (h : Follows report w frontier done)
    (hd : ∀ x, report.Reachable x → x ∈ report.components)
    (hn : ((frontier ++ done).map Trail.ref).Nodup) :
    w.next report ≠ (some (.error fault), w') := by
  intro he
  obtain ⟨p, stack, hs, hp⟩ := next_eq_error he
  rw [h.stack_eq, List.map_eq_cons_iff] at hs
  obtain ⟨t, rest, rfl, rfl, rfl⟩ := hs
  rcases hp with hp | hp
  · have hl := h.lineage t (by simp)
    obtain ⟨c, hc⟩ := Report.mem_components_iff.mp (hd _ hl.reachable)
    cases hp.symm.trans hc
  · have hm := (h.mem_visited _).mp hp
    rw [List.cons_append, List.map_cons, List.nodup_cons, List.map_append] at hn
    exact hn.1 (List.mem_append_right _ hm)

end Follows

end Walk

end ComponentIdentity
