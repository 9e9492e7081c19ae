import ComponentIdentity.Proofs.Tree

/-! # Walks in preorder

A walk does not fail exactly if every ref it can come to is declared and listed
once: the root by nobody, any other ref at one place in the child lists of the
reachable components. It then visits the tree in preorder, each component before
those below it and these without a gap.
-/

namespace ComponentIdentity

namespace Report

variable {report : Report} {r : Ref} {above : List Component}

def ListedAt (report : Report) (r : Ref) (place : Ref × Nat) : Prop :=
  report.Reachable place.1 ∧
    ∃ c, report.component? place.1 = some c ∧ c.children[place.2]? = some r

/-- The child lists of the reachable components, taken together, list every reachable ref but the
root once, the root never, and only declared refs. -/
structure ListsOnce (report : Report) : Prop where
  root_declared : report.root ∈ report.components
  children_declared : ∀ p c, report.Reachable p → report.component? p = some c →
    ∀ child ∈ c.children, child ∈ report.components
  root_not_mem : ∀ p c, report.Reachable p → report.component? p = some c →
    report.root ∉ c.children
  existsUnique_place : ∀ r, report.Reachable r → r ≠ report.root → ∃! place, report.ListedAt r place

theorem ListsOnce.place_eq (h : report.ListsOnce) {place place' : Ref × Nat}
    (hp : report.ListedAt r place) (hp' : report.ListedAt r place') : place = place' := by
  have ⟨hr, c, hc, hi⟩ := hp
  have hm := List.mem_of_getElem? hi
  have hne : r ≠ report.root := by
    rintro rfl
    exact h.root_not_mem _ c hr hc hm
  exact (h.existsUnique_place r (.tail hr ⟨c, hc, hm⟩) hne).unique hp hp'

theorem ListsOnce.isTree (h : report.ListsOnce) : report.IsTree where
  root_not_mem := h.root_not_mem
  nodup p c hp hc := by
    rw [List.nodup_iff_getElem?_ne_getElem?]
    intro i j hij hj he
    have hcj : c.children[j]? = some c.children[j] := List.getElem?_eq_getElem hj
    have hpi : report.ListedAt c.children[j] (p, i) := ⟨hp, c, hc, he.trans hcj⟩
    have hpj : report.ListedAt c.children[j] (p, j) := ⟨hp, c, hc, hcj⟩
    cases h.place_eq hpi hpj
    exact Nat.lt_irrefl _ hij
  parent_eq p p' r hp hp' hr hr' := by
    obtain ⟨c, hc, hm⟩ := hr
    obtain ⟨c', hc', hm'⟩ := hr'
    obtain ⟨i, hi⟩ := List.getElem?_of_mem hm
    obtain ⟨j, hj⟩ := List.getElem?_of_mem hm'
    have hpi : report.ListedAt r (p, i) := ⟨hp, c, hc, hi⟩
    have hpj : report.ListedAt r (p', j) := ⟨hp', c', hc', hj⟩
    exact congrArg Prod.fst (h.place_eq hpi hpj)

theorem ListsOnce.declared (h : report.ListsOnce) (hr : report.Reachable r) :
    r ∈ report.components := by
  cases hr with
  | refl => exact h.root_declared
  | tail hp hc =>
    obtain ⟨c, hc, hm⟩ := hc
    exact h.children_declared _ c hp hc r hm

theorem IsTree.existsUnique_place (h : report.IsTree) (hr : report.Reachable r)
    (hne : r ≠ report.root) : ∃! place, report.ListedAt r place := by
  cases hr with
  | refl => exact absurd rfl hne
  | @tail p _ hp hc =>
    obtain ⟨c, hc, hm⟩ := hc
    obtain ⟨i, hi⟩ := List.getElem?_of_mem hm
    refine ⟨(p, i), ⟨hp, c, hc, hi⟩, ?_⟩
    rintro ⟨p', j⟩ ⟨hp', c', hc', hj⟩
    cases h.parent_eq p p' r hp hp' ⟨c, hc, hm⟩ ⟨c', hc', List.mem_of_getElem? hj⟩
    cases hc.symm.trans hc'
    obtain ⟨hlt, -⟩ := List.getElem?_eq_some_iff.mp hi
    cases (List.getElem?_inj hlt (h.nodup p c hp hc)).mp (hi.trans hj.symm)
    rfl

theorem IsTree.listsOnce (h : report.IsTree)
    (hd : ∀ x, report.Reachable x → x ∈ report.components) : report.ListsOnce where
  root_declared := hd _ .refl
  children_declared _ c hp hc _ hm := hd _ (.tail hp ⟨c, hc, hm⟩)
  root_not_mem := h.root_not_mem
  existsUnique_place _ := h.existsUnique_place

theorem Lineage.exists_way (h : report.Lineage above r) :
    ∃ way, report.Way way r ∧ way.length = above.length := by
  induction h with
  | root => exact ⟨[], .root, rfl⟩
  | child _ hc hm ih =>
    obtain ⟨way, hw, hl⟩ := ih
    obtain ⟨i, hi⟩ := List.getElem?_of_mem hm
    exact ⟨i :: way, .child hw hc hi, by rw [List.length_cons, List.length_cons, hl]⟩

end Report

namespace Trail

variable {report : Report} {t u v : Trail} {ts us : List Trail} {c : Component}

/-- Trails in preorder: each of some trails that stand side by side, followed by those below it. -/
inductive Spans (report : Report) : List Trail → List Trail → Prop where
  | nil : Spans report [] []
  | cons {t : Trail} {c : Component} {ts below rest : List Trail} :
      report.component? t.ref = some c → Spans report (t.below c) below → Spans report ts rest →
      Spans report (t :: ts) (t :: (below ++ rest))

namespace Spans

theorem exists_of_append {ts' : List Trail} (h : Spans report (ts ++ ts') us) :
    ∃ vs vs', us = vs ++ vs' ∧ Spans report ts vs ∧ Spans report ts' vs' := by
  induction ts generalizing us with
  | nil => exact ⟨[], us, rfl, .nil, h⟩
  | cons t ts ih =>
    cases h with
    | @cons _ _ _ below _ hc hb hr =>
      obtain ⟨vs, vs', rfl, hvs, hvs'⟩ := ih hr
      exact ⟨t :: (below ++ vs), vs', by simp, .cons hc hb hvs, hvs'⟩

theorem subset (h : Spans report ts us) : ts ⊆ us := by
  induction h with
  | nil => exact List.Subset.refl _
  | cons _ _ _ _ ih =>
    exact List.cons_subset_cons _ (List.subset_append_of_subset_right _ ih)

/-- Behind each trail stand those below it, without a gap. -/
theorem exists_below (h : Spans report ts us) (hu : u ∈ us) :
    ∃ c before below after, report.component? u.ref = some c ∧
      us = before ++ u :: (below ++ after) ∧ Spans report (u.below c) below := by
  induction h with
  | nil => cases hu
  | @cons t c ts below rest hc hb hr ihb ihr =>
    rcases List.mem_cons.mp hu with rfl | hu
    · exact ⟨c, [], below, rest, hc, rfl, hb⟩
    rcases List.mem_append.mp hu with hu | hu
    · obtain ⟨d, before, between, after, hd, rfl, hs⟩ := ihb hu
      exact ⟨d, t :: before, between, after ++ rest, hd, by simp, hs⟩
    · obtain ⟨d, before, between, after, hd, rfl, hs⟩ := ihr hu
      exact ⟨d, t :: (below ++ before), between, after, hd, by simp, hs⟩

theorem declared (h : Spans report ts us) (hu : u ∈ us) :
    ∃ c, report.component? u.ref = some c := by
  obtain ⟨c, -, -, -, hc, -, -⟩ := h.exists_below hu
  exact ⟨c, hc⟩

theorem below_subset (h : Spans report ts us) (hu : u ∈ us)
    (hc : report.component? u.ref = some c) : u.below c ⊆ us := by
  obtain ⟨d, before, below, after, hd, rfl, hs⟩ := h.exists_below hu
  cases hc.symm.trans hd
  exact fun v hv => by simp [hs.subset hv]

theorem exists_root (h : Spans report ts us) (hv : v ∈ us) :
    ∃ t ∈ ts, Relation.ReflTransGen report.IsChild t.ref v.ref := by
  induction h with
  | nil => cases hv
  | @cons t c ts below rest hc _ _ ihb ihr =>
    rcases List.mem_cons.mp hv with rfl | hv
    · exact ⟨v, List.mem_cons_self, .refl⟩
    rcases List.mem_append.mp hv with hv | hv
    · obtain ⟨s, hs, hsv⟩ := ihb hv
      have hchild : report.IsChild t.ref s.ref := ⟨c, hc, (mem_below_iff.mp hs).2⟩
      exact ⟨t, List.mem_cons_self, .head hchild hsv⟩
    · obtain ⟨s, hs, hsv⟩ := ihr hv
      exact ⟨s, List.mem_cons_of_mem _ hs, hsv⟩

theorem mem_refs_iff {r : Ref} (h : Spans report (u.below c) us)
    (hc : report.component? u.ref = some c) :
    r ∈ us.map Trail.ref ↔ Relation.TransGen report.IsChild u.ref r := by
  rw [List.mem_map]
  constructor
  · rintro ⟨v, hv, rfl⟩
    obtain ⟨t, ht, htv⟩ := h.exists_root hv
    exact .head' ⟨c, hc, (mem_below_iff.mp ht).2⟩ htv
  · intro hr
    induction hr with
    | single hs =>
      obtain ⟨d, hd, hm⟩ := hs
      cases hc.symm.trans hd
      exact ⟨⟨c :: u.above, _⟩, h.subset (mem_below_iff.mpr ⟨rfl, hm⟩), rfl⟩
    | tail _ hs ih =>
      obtain ⟨v, hv, rfl⟩ := ih
      obtain ⟨d, hd, hm⟩ := hs
      exact ⟨⟨d :: v.above, _⟩, h.below_subset hv hd (mem_below_iff.mpr ⟨rfl, hm⟩), rfl⟩

end Spans

def visit (report : Report) (t : Trail) : Visit :=
  ⟨(report.component? t.ref).getD default, t.depth⟩

theorem visit_eq (h : report.component? t.ref = some c) : t.visit report = ⟨c, t.depth⟩ := by
  rw [visit, h, Option.getD_some]

end Trail

namespace Walk

variable {report : Report} {w w' : Walk} {frontier done : List Trail} {fault : ReportFault}

namespace Follows

theorem error_not_mem_items (h : Follows report w frontier done)
    (hs : Spread report frontier done) (ht : report.IsTree)
    (hd : ∀ x, report.Reachable x → x ∈ report.components)
    (hn : ((frontier ++ done).map Trail.ref).Nodup) : .error fault ∉ w.items report := by
  induction w using induction_next report generalizing frontier done with
  | h w ih =>
    rw [items_eq]
    match hw : w.next report with
    | (none, _) => simp
    | (some (.error _), _) => exact absurd hw (h.next_ne_error hd hn)
    | (some (.ok v), w') =>
      obtain ⟨t, rest, rfl, hc, -, -, hw'⟩ := h.visit hw
      have hrest := ih v w' hw hw' (hs.visit hc) (h.nodup_visit hs ht hn hc)
      simpa using hrest

/-- A walk that does not fail visits the trails of its frontier in preorder. -/
theorem exists_spans (h : Follows report w frontier done) (hs : Spread report frontier done)
    (hok : ∀ fault, .error fault ∉ w.items report) :
    ∃ ts w', Trail.Spans report frontier ts ∧
      w.items report = ts.map (fun t => .ok (t.visit report)) ∧
      Follows report w' [] (ts.reverse ++ done) ∧ Spread report [] (ts.reverse ++ done) := by
  induction w using induction_next report generalizing frontier done with
  | h w ih =>
    rw [items_eq] at hok ⊢
    match hw : w.next report with
    | (none, _) =>
      have hstack := next_fst_eq_none_iff.mp (congrArg Prod.fst hw)
      rw [h.stack_eq, List.map_eq_nil_iff] at hstack
      subst hstack
      exact ⟨[], w, .nil, rfl, h, hs⟩
    | (some (.error fault), _) =>
      rw [hw] at hok
      exact absurd List.mem_cons_self (hok fault)
    | (some (.ok v), w') =>
      rw [hw] at hok
      obtain ⟨t, rest, rfl, hc, -, hd, hw'⟩ := h.visit hw
      obtain ⟨ts, w'', hts, hitems, hend, hspread⟩ := ih v w' hw hw' (hs.visit hc)
        fun fault hm => hok fault (List.mem_cons_of_mem _ hm)
      obtain ⟨below, after, rfl, hb, ha⟩ := hts.exists_of_append
      have hv : t.visit report = v := by rw [Trail.visit_eq hc, ← hd]
      refine ⟨t :: (below ++ after), w'', .cons hc hb ha, ?_, ?_, ?_⟩
      · rw [List.map_cons, hv]
        exact congrArg _ hitems
      · simpa using hend
      · simpa using hspread

end Follows

end Walk

namespace Report

variable {report : Report}

/-- The visits are those of the reachable refs, once each. Behind a visit stand those of its
descendants without a gap, and its depth is the length of the only way to its ref. -/
structure InPreorder (report : Report) (visits : List Visit) : Prop where
  declared : ∀ v ∈ visits, report.component? v.component.ref = some v.component
  nodup : (visits.map (·.component.ref)).Nodup
  mem_refs_iff : ∀ r, r ∈ visits.map (·.component.ref) ↔ report.Reachable r
  parent_lt : ∀ (i j : Nat) (u v : Visit), visits[i]? = some u → visits[j]? = some v →
    v.component.ref ∈ u.component.children → i < j
  below : ∀ v ∈ visits, ∃ before below after, visits = before ++ v :: (below ++ after) ∧
    ∀ r, r ∈ below.map (·.component.ref) ↔
      Relation.TransGen report.IsChild v.component.ref r
  depth : ∀ v ∈ visits, ∃ way, report.Way way v.component.ref ∧ way.length = v.depth ∧
    ∀ way', report.Way way' v.component.ref → way' = way

/-- Where the descendants of a visit stand right behind it, each component stands behind its
parent. -/
theorem lt_of_below {visits before below after : List Visit} {u v : Visit} {i j : Nat}
    (hn : (visits.map (·.component.ref)).Nodup) (he : visits = before ++ u :: (below ++ after))
    (hv : v.component.ref ∈ below.map (·.component.ref)) (hi : visits[i]? = some u)
    (hj : visits[j]? = some v) : i < j := by
  have hat : ∀ {k l : Nat} {x y : Visit}, visits[k]? = some x → visits[l]? = some y →
      x.component.ref = y.component.ref → k = l := by
    intro k l x y hk hl hxy
    obtain ⟨hlt, -⟩ := List.getElem?_eq_some_iff.mp hk
    refine (List.getElem?_inj (by simpa using hlt) hn).mp ?_
    simp [hk, hl, hxy]
  obtain ⟨x, hx, hxv⟩ := List.mem_map.mp hv
  obtain ⟨k, hk⟩ := List.getElem?_of_mem hx
  obtain ⟨hlt, -⟩ := List.getElem?_eq_some_iff.mp hk
  have hu : visits[before.length]? = some u := by simp [he]
  have hx : visits[before.length + (k + 1)]? = some x := by
    rw [he, List.getElem?_append_right (Nat.le_add_right _ _), Nat.add_sub_cancel_left,
      List.getElem?_cons_succ, List.getElem?_append_left hlt, hk]
  have := hat hi hu rfl
  have := hat hj hx hxv.symm
  omega

theorem ref_visit {t : Trail} {ts us : List Trail} (h : Trail.Spans report ts us) (ht : t ∈ us) :
    report.component? t.ref = some (t.visit report).component ∧
      (t.visit report).component.ref = t.ref := by
  obtain ⟨c, hc⟩ := h.declared ht
  rw [Trail.visit_eq hc]
  exact ⟨hc, ref_of_component? hc⟩

theorem inPreorder_of_spans {ts : List Trail} {w : Walk}
    (hs : Trail.Spans report [⟨[], report.root⟩] ts) (hf : Walk.Follows report w [] ts.reverse)
    (ht : report.IsTree) : report.InPreorder (ts.map (·.visit report)) := by
  have hrefs : ∀ us ⊆ ts, (us.map (·.visit report)).map (·.component.ref) = us.map Trail.ref := by
    intro us hus
    rw [List.map_map]
    exact List.map_congr_left fun t ht => (ref_visit hs (hus ht)).2
  have hnodup : ((ts.map (·.visit report)).map (·.component.ref)).Nodup := by
    have hn := hf.nodup
    rwa [List.map_reverse, List.nodup_reverse, ← hrefs ts (List.Subset.refl _)] at hn
  have hbelow : ∀ v ∈ ts.map (·.visit report), ∃ before below after,
      ts.map (·.visit report) = before ++ v :: (below ++ after) ∧
        ∀ r, r ∈ below.map (·.component.ref) ↔
          Relation.TransGen report.IsChild v.component.ref r := by
    intro v hv
    obtain ⟨t, htm, rfl⟩ := List.mem_map.mp hv
    obtain ⟨c, before, below, after, hc, he, hb⟩ := hs.exists_below htm
    refine ⟨before.map (·.visit report), below.map (·.visit report), after.map (·.visit report),
      by simp [he], fun r => ?_⟩
    have hsub : below ⊆ ts := fun x hx => by simp [he, hx]
    rw [hrefs below hsub, (ref_visit hs htm).2]
    exact hb.mem_refs_iff hc
  refine ⟨?_, hnodup, ?_, ?_, hbelow, ?_⟩
  · intro v hv
    obtain ⟨t, htm, rfl⟩ := List.mem_map.mp hv
    obtain ⟨hc, hr⟩ := ref_visit hs htm
    rw [hr, hc]
  · intro r
    rw [hrefs ts (List.Subset.refl _), ← hf.mem_refs_iff, List.map_reverse, List.mem_reverse]
  · intro i j u v hi hj hm
    have hu := List.mem_of_getElem? hi
    obtain ⟨before, below, after, he, hb⟩ := hbelow u hu
    obtain ⟨t, htm, rfl⟩ := List.mem_map.mp hu
    obtain ⟨hc, hr⟩ := ref_visit hs htm
    exact lt_of_below hnodup he ((hb _).mpr (.single ⟨_, hr.symm ▸ hc, hm⟩)) hi hj
  · intro v hv
    obtain ⟨t, htm, rfl⟩ := List.mem_map.mp hv
    have hl := hf.lineage t (by simpa using htm)
    obtain ⟨way, hw, hlen⟩ := hl.exists_way
    rw [(ref_visit hs htm).2]
    exact ⟨way, hw, hlen, fun way' hw' => ht.reachedOnce _ _ _ hw' hw⟩

/-- A walk does not fail exactly if every ref that it can come to is declared and, but for the
root, listed once. Exactly then it visits the reachable refs in preorder. -/
theorem walk_succeeds_iff (report : Report) :
    ((∀ fault, .error fault ∉ report.walk) ↔ report.ListsOnce) ∧
      (report.ListsOnce ↔
        ∃ visits, report.walk = visits.map .ok ∧ report.InPreorder visits) := by
  have hnever : report.ListsOnce → ∀ fault, .error fault ∉ report.walk := fun h fault =>
    Walk.follows_start.error_not_mem_items Walk.spread_start h.isTree (fun _ => h.declared)
      (by simp)
  have hvisits : (∀ fault, .error fault ∉ report.walk) →
      report.ListsOnce ∧ ∃ visits, report.walk = visits.map .ok ∧ report.InPreorder visits := by
    intro hok
    obtain ⟨ts, w, hts, hitems, hf, hs⟩ := Walk.follows_start.exists_spans Walk.spread_start hok
    rw [List.append_nil] at hf hs
    have htree := hf.isTree hs
    have hpre := inPreorder_of_spans hts hf htree
    refine ⟨htree.listsOnce fun x hx => ?_, _, ?_, hpre⟩
    · obtain ⟨v, hv, rfl⟩ := List.mem_map.mp ((hpre.mem_refs_iff x).mpr hx)
      exact mem_components_iff.mpr ⟨_, hpre.declared v hv⟩
    · rw [List.map_map]
      exact hitems
  refine ⟨⟨fun hok => (hvisits hok).1, hnever⟩, fun h => (hvisits (hnever h)).2, ?_⟩
  rintro ⟨visits, hwalk, -⟩
  refine (hvisits fun fault hm => ?_).1
  simp [hwalk] at hm

/-- A project that lists its only file twice. -/
def twiceReport : Report :=
  (ofComponents { root := 1 } [.withChildren (.project 1 "P") [2, 2], .file 2 "a"]).toOption.getD
    (.empty { root := 1 })

theorem walk_succeeds_iff_mixedReport : mixedReport.ListsOnce ∧ ¬ twiceReport.ListsOnce := by
  have hmixed : mixedReport.walk.all (·.isOk) = true := by decide +kernel
  have htwice : twiceReport.walk.all (·.isOk) = false := by decide +kernel
  constructor
  · refine (walk_succeeds_iff mixedReport).1.mp fun fault hm => ?_
    simpa [Except.isOk, Except.toBool] using List.all_eq_true.mp hmixed _ hm
  · intro h
    obtain ⟨visits, hwalk, -⟩ := (walk_succeeds_iff twiceReport).2.mp h
    simp [hwalk, Except.isOk, Except.toBool] at htwice

end Report

end ComponentIdentity
