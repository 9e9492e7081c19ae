import Mathlib.Data.List.Perm.Subperm
import ComponentIdentity.Proofs.Walk

/-! # Unfoldings

Unfolded from its root a report is a tree: below each occurrence of a ref stand
the children of its component, in declared order. Around a cycle the tree never
ends, but its occurrences still come one after the other, each before those
below it. A walk gives them in this order, up to the first one that is not
declared or repeats a ref.
-/

namespace ComponentIdentity

section List

variable {α β : Type} {k : Nat}

theorem List.take_append_congr {xs xs' ys ys' : List α} (hx : xs.take k = xs'.take k)
    (hy : ys.take k = ys'.take k) : (xs ++ ys).take k = (xs' ++ ys').take k := by
  have hlen := congrArg List.length hx
  simp only [List.length_take] at hlen
  rw [List.take_append, List.take_append, hx]
  by_cases hk : k ≤ xs.length
  · rw [Nat.sub_eq_zero_of_le hk, Nat.sub_eq_zero_of_le (by omega)]
    rfl
  · have hsub : k - xs'.length = k - xs.length := by omega
    have hcut : ∀ zs : List α, zs.take (k - xs.length) = (zs.take k).take (k - xs.length) := by
      intro zs
      rw [List.take_take, Nat.min_eq_left (Nat.sub_le k xs.length)]
    rw [hsub, hcut ys, hcut ys', hy]

theorem List.take_flatMap_congr {f g : α → List β} {l : List α}
    (h : ∀ a ∈ l, (f a).take k = (g a).take k) : (l.flatMap f).take k = (l.flatMap g).take k := by
  induction l with
  | nil => rfl
  | cons a l ih =>
    obtain ⟨ha, hl⟩ := List.forall_mem_cons.mp h
    exact List.take_append_congr ha (ih hl)

end List

namespace Trail

variable {report : Report} {t u : Trail} {ts : List Trail} {i n m : Nat}

/-- The occurrences one step further down; below a ref that is not declared there are none. -/
def children (report : Report) (t : Trail) : List Trail :=
  match report.component? t.ref with
  | none => []
  | some c => t.below c

/-- The tree from an occurrence on, each occurrence before those below it, cut off `n` steps
further down. -/
def unfold (report : Report) : Nat → Trail → List Trail
  | 0, t => [t]
  | n + 1, t => t :: (t.children report).flatMap (unfold report n)

def nth? (report : Report) (ts : List Trail) (i : Nat) : Option Trail :=
  (ts.flatMap (unfold report i))[i]?

/-- A later cut leaves the first occurrences as they are. -/
theorem take_unfold (h : n ≤ m) :
    (unfold report m t).take (n + 1) = (unfold report n t).take (n + 1) := by
  induction n generalizing m t with
  | zero => cases m <;> simp [unfold]
  | succ n ih =>
    obtain ⟨m, rfl⟩ := Nat.exists_eq_add_of_lt h
    rw [unfold, unfold, List.take_succ_cons, List.take_succ_cons]
    exact congrArg _ (List.take_flatMap_congr fun u _ => ih (by omega))

theorem getElem?_flatMap_unfold (h : i ≤ n) :
    (ts.flatMap (unfold report n))[i]? = nth? report ts i := by
  have ht : (ts.flatMap (unfold report n)).take (i + 1) =
      (ts.flatMap (unfold report i)).take (i + 1) :=
    List.take_flatMap_congr fun _ _ => take_unfold h
  rw [nth?, ← List.getElem?_take_of_lt (Nat.lt_succ_self i), ht,
    List.getElem?_take_of_lt (Nat.lt_succ_self i)]

theorem nth?_nil : nth? report [] i = none := rfl

theorem nth?_cons_zero : nth? report (t :: ts) 0 = some t := rfl

theorem nth?_cons_succ :
    nth? report (t :: ts) (i + 1) = nth? report (t.children report ++ ts) i := by
  have ht : ((t.children report).flatMap (unfold report i) ++
      ts.flatMap (unfold report (i + 1))).take (i + 1) =
      ((t.children report).flatMap (unfold report i) ++
        ts.flatMap (unfold report i)).take (i + 1) :=
    List.take_append_congr rfl
      (List.take_flatMap_congr fun _ _ => take_unfold (Nat.le_succ i))
  rw [nth?, nth?, List.flatMap_cons, List.flatMap_append, unfold, List.cons_append,
    List.getElem?_cons_succ, ← List.getElem?_take_of_lt (Nat.lt_succ_self i), ht,
    List.getElem?_take_of_lt (Nat.lt_succ_self i)]

/-- What is wrong with an occurrence that is not declared or whose ref was met before. -/
def fault (report : Report) (t : Trail) : ReportFault :=
  match report.component? t.ref, t.above with
  | some _, _ => .reachedTwice t.ref
  | none, [] => .missingRoot t.ref
  | none, parent :: _ => .missingChild parent.ref t.ref

def objection (report : Report) (t : Trail) : String :=
  match report.component? t.ref, t.above with
  | some _, _ => s!"component {t.ref} is reached more than once (cycle or shared child)"
  | none, [] => s!"root component {t.ref} does not exist"
  | none, parent :: _ => s!"component {parent.ref} references missing child {t.ref}"

theorem text_fault : (t.fault report).text = t.objection report := by
  unfold fault objection
  split <;> rfl

theorem fault_of_undeclared (h : report.component? t.ref = none) :
    t.fault report = t.pending.missing := by
  unfold fault Pending.missing pending
  rw [h]
  cases t.above <;> rfl

theorem fault_of_declared {c : Component} (h : report.component? t.ref = some c) :
    t.fault report = .reachedTwice t.ref := by
  simp [fault, h]

theorem children_eq {c : Component} (h : report.component? t.ref = some c) :
    t.children report = t.below c := by
  simp [children, h]

theorem self_mem_unfold : t ∈ unfold report n t := by cases n <;> simp [unfold]

theorem mem_unfold_succ_of_mem_children {v : Trail} (hu : u ∈ unfold report n t)
    (hv : v ∈ u.children report) : v ∈ unfold report (n + 1) t := by
  induction n generalizing t with
  | zero =>
    obtain rfl := List.mem_singleton.mp hu
    exact List.mem_cons_of_mem _ (List.mem_flatMap.mpr ⟨v, hv, self_mem_unfold⟩)
  | succ n ih =>
    refine List.mem_cons_of_mem _ (List.mem_flatMap.mpr ?_)
    rcases List.mem_cons.mp hu with rfl | hu
    · exact ⟨v, hv, self_mem_unfold⟩
    · obtain ⟨s, hs, hu⟩ := List.mem_flatMap.mp hu
      exact ⟨s, hs, ih hu⟩

theorem mem_unfold_of_le (h : n ≤ m) (hu : u ∈ unfold report n t) : u ∈ unfold report m t := by
  induction n generalizing m t with
  | zero =>
    obtain rfl := List.mem_singleton.mp hu
    exact self_mem_unfold
  | succ n ih =>
    obtain ⟨m, rfl⟩ := Nat.exists_eq_add_of_lt h
    rcases List.mem_cons.mp hu with rfl | hu
    · exact self_mem_unfold
    · obtain ⟨s, hs, hu⟩ := List.mem_flatMap.mp hu
      exact List.mem_cons_of_mem _ (List.mem_flatMap.mpr ⟨s, hs, ih (by omega) hu⟩)

end Trail

namespace Report

variable {report : Report} {r s : Ref} {above : List Component} {i n : Nat}

def occurrence? (report : Report) (i : Nat) : Option Trail :=
  Trail.nth? report [⟨[], report.root⟩] i

/-- Every cut that is deep enough has the same `i`-th occurrence. -/
theorem getElem?_unfold (h : i ≤ n) :
    (Trail.unfold report n ⟨[], report.root⟩)[i]? = report.occurrence? i := by
  rw [occurrence?, ← Trail.getElem?_flatMap_unfold h, List.flatMap_singleton]

theorem Lineage.mem_unfold (h : report.Lineage above r) :
    (⟨above, r⟩ : Trail) ∈ Trail.unfold report above.length ⟨[], report.root⟩ := by
  induction h with
  | root => exact Trail.self_mem_unfold
  | child _ hc hm ih =>
    refine Trail.mem_unfold_succ_of_mem_children ih ?_
    rw [Trail.children_eq hc]
    exact Trail.mem_below_iff.mpr ⟨rfl, hm⟩

theorem Lineage.exists_of_le (h : report.Lineage above r) (hi : i ≤ above.length) :
    ∃ t : Trail, report.Lineage t.above t.ref ∧ t.depth = i := by
  induction h with
  | root => exact ⟨⟨[], report.root⟩, .root, (Nat.le_zero.mp hi).symm⟩
  | @child above parent child c hp hc hm ih =>
    rcases Nat.lt_or_eq_of_le hi with hlt | rfl
    · exact ih (Nat.lt_succ_iff.mp hlt)
    · exact ⟨⟨c :: above, child⟩, .child hp hc hm, rfl⟩

theorem Lineage.exists_occurrence (h : report.Lineage above r) :
    ∃ t, report.occurrence? above.length = some t := by
  have hsub : List.range (above.length + 1) ⊆
      (Trail.unfold report above.length ⟨[], report.root⟩).map Trail.depth := by
    intro i hi
    have hle := Nat.lt_succ_iff.mp (List.mem_range.mp hi)
    obtain ⟨t, ht, rfl⟩ := h.exists_of_le hle
    exact List.mem_map.mpr ⟨t, Trail.mem_unfold_of_le hle ht.mem_unfold, rfl⟩
  have hlen := (List.nodup_range.subperm hsub).length_le
  rw [List.length_range, List.length_map] at hlen
  rw [← getElem?_unfold (Nat.le_refl _)]
  exact ⟨_, List.getElem?_eq_getElem hlen⟩

theorem Lineage.extend (h : report.Lineage above r) (hs : Relation.TransGen report.IsChild r s) :
    ∃ above', report.Lineage above' s ∧ above.length < above'.length := by
  induction hs with
  | single hs =>
    obtain ⟨c, hc, hm⟩ := hs
    exact ⟨c :: above, .child h hc hm, Nat.lt_succ_self _⟩
  | tail _ hs ih =>
    obtain ⟨above', ha, hlt⟩ := ih
    obtain ⟨c, hc, hm⟩ := hs
    exact ⟨c :: above', .child ha hc hm, Nat.lt_succ_of_lt hlt⟩

/-- Around a cycle the tree does not end. -/
theorem exists_occurrence_of_cycle (hr : report.Reachable r)
    (hc : Relation.TransGen report.IsChild r r) (i : Nat) : ∃ t, report.occurrence? i = some t := by
  have hlong : ∀ n, ∃ above, report.Lineage above r ∧ n ≤ above.length := by
    intro n
    induction n with
    | zero =>
      obtain ⟨above, ha⟩ := reachable_iff_exists_lineage.mp hr
      exact ⟨above, ha, Nat.zero_le _⟩
    | succ n ih =>
      obtain ⟨above, ha, hn⟩ := ih
      obtain ⟨above', ha', hlt⟩ := ha.extend hc
      exact ⟨above', ha', Nat.succ_le_of_lt (Nat.lt_of_le_of_lt hn hlt)⟩
  obtain ⟨above, ha, hi⟩ := hlong i
  obtain ⟨t, ht, rfl⟩ := ha.exists_of_le hi
  exact ht.exists_occurrence

/-- The first occurrences of the tree, as long as every ref is declared and none repeats. -/
structure Opening (report : Report) (ts : List Trail) : Prop where
  occurs : ∀ (i : Nat) (t : Trail), ts[i]? = some t → report.occurrence? i = some t
  declared : ∀ t ∈ ts, ∃ c, report.component? t.ref = some c
  nodup : (ts.map Trail.ref).Nodup

end Report

namespace Walk

variable {report : Report} {w : Walk} {frontier done : List Trail} {k : Nat}

/-- A walk visits the first trails that unfold from its frontier, and fails at the one behind
them. `stopped` says why it goes no further. -/
structure Gives (report : Report) (w : Walk) (frontier done ts : List Trail) : Prop where
  visits : ∀ (i : Nat) (t : Trail), ts[i]? = some t → Trail.nth? report frontier i = some t ∧
    ∃ c, report.component? t.ref = some c ∧ (w.items report)[i]? = some (.ok ⟨c, t.depth⟩)
  nodup : ((ts ++ done).map Trail.ref).Nodup
  rest : (w.items report).drop ts.length =
    ((Trail.nth? report frontier ts.length).map fun t => .error (t.fault report)).toList
  stopped : ∀ t, Trail.nth? report frontier ts.length = some t →
    report.component? t.ref = none ∨ t.ref ∈ (ts ++ done).map Trail.ref

namespace Follows

variable {fault : ReportFault} {w' : Walk}

theorem gives_nil (h : Follows report w [] done) : Gives report w [] done [] where
  visits := by simp
  nodup := by simpa using h.nodup
  rest := by simp [items_eq_nil h.stack_eq, Trail.nth?_nil]
  stopped := by simp [Trail.nth?_nil]

theorem gives_error (h : Follows report w frontier done)
    (hn : w.next report = (some (.error fault), w')) : Gives report w frontier done [] := by
  obtain ⟨-, p, stack, hs, hf⟩ := next_eq_fault hn
  rw [h.stack_eq, List.map_eq_cons_iff] at hs
  obtain ⟨t, rest, rfl, rfl, rfl⟩ := hs
  refine ⟨by simp, by simpa using h.nodup, ?_, ?_⟩
  · have hfault : fault = t.fault report := by
      rcases hf with ⟨hc, rfl⟩ | ⟨⟨c, hc⟩, -, rfl⟩
      · exact (Trail.fault_of_undeclared hc).symm
      · exact (Trail.fault_of_declared hc).symm
    rw [items_eq, hn, hfault]
    rfl
  · rintro u hu
    cases hu
    exact hf.imp And.left fun ⟨_, hp, _⟩ => (h.mem_visited _).mp hp

end Follows

variable {v : Visit} {w' : Walk} {t : Trail} {rest ts : List Trail}

theorem Gives.cons (hg : Gives report w' (t.below v.component ++ rest) (t :: done) ts)
    (hn : w.next report = (some (.ok v), w')) (hc : report.component? t.ref = some v.component)
    (hd : v.depth = t.depth) : Gives report w (t :: rest) done (t :: ts) := by
  obtain ⟨hvisits, hnodup, hrest, hstopped⟩ := hg
  rw [← Trail.children_eq hc] at hvisits hrest hstopped
  have hperm : (t :: ts ++ done).Perm (ts ++ t :: done) := List.perm_middle.symm
  have hitems : w.items report = .ok v :: w'.items report := by rw [items_eq, hn]
  refine ⟨?_, (hperm.map Trail.ref).nodup_iff.mpr hnodup, ?_, ?_⟩
  · intro i u hu
    rw [hitems]
    cases i with
    | zero =>
      cases hu
      exact ⟨Trail.nth?_cons_zero, _, hc, by rw [← hd]; rfl⟩
    | succ i =>
      rw [Trail.nth?_cons_succ]
      exact hvisits i u hu
  · rw [hitems, List.length_cons, Trail.nth?_cons_succ]
    exact hrest
  · intro u hu
    rw [List.length_cons, Trail.nth?_cons_succ] at hu
    exact (hstopped u hu).imp_right (hperm.map Trail.ref).mem_iff.mpr

theorem Follows.exists_gives (h : Follows report w frontier done) :
    ∃ ts, Gives report w frontier done ts := by
  induction w using induction_next report generalizing frontier done with
  | h w ih =>
    match hw : w.next report with
    | (none, _) =>
      have hs := next_fst_eq_none_iff.mp (congrArg Prod.fst hw)
      rw [h.stack_eq, List.map_eq_nil_iff] at hs
      subst hs
      exact ⟨[], h.gives_nil⟩
    | (some (.error _), _) => exact ⟨[], h.gives_error hw⟩
    | (some (.ok v), w') =>
      obtain ⟨t, rest, rfl, hc, -, hd, hw'⟩ := h.visit hw
      obtain ⟨ts, hg⟩ := ih v w' hw hw'
      exact ⟨t :: ts, hg.cons hw hc hd⟩

theorem take_eq_map_getElem? :
    take report k w = (List.range k).map fun i => (w.items report)[i]? := by
  induction k generalizing w with
  | zero => rfl
  | succ k ih =>
    rw [take, ih, List.range_succ_eq_map, List.map_cons, List.map_map, items_eq report w]
    match hw : w.next report with
    | (none, w') =>
      have hs := next_fst_eq_none_iff.mp (congrArg Prod.fst hw)
      obtain rfl : w = w' := by simpa [next, hs] using hw
      simp [items_eq_nil hs, Function.comp_def]
    | (some (.error fault), w') =>
      obtain ⟨rfl, -⟩ := next_eq_fault hw
      simp [items_eq_nil (w := w.failed) rfl, Function.comp_def]
    | (some (.ok v), w') => rfl

end Walk

namespace Report

variable {report : Report} {ts us : List Trail}

theorem Opening.prefix_of_length_le (hu : report.Opening us) (ht : report.Opening ts)
    (h : us.length ≤ ts.length) : us <+: ts := by
  rw [List.prefix_iff_getElem?]
  intro i hi
  have ho := hu.occurs i _ (List.getElem?_eq_getElem hi)
  have hi' : i < ts.length := Nat.lt_of_lt_of_le hi h
  rw [List.getElem?_eq_getElem hi', ← ht.occurs i _ (List.getElem?_eq_getElem hi'), ho]

theorem Opening.length_le (hu : report.Opening us) (ht : report.Opening ts)
    (hstop : ∀ t, report.occurrence? ts.length = some t →
      report.component? t.ref = none ∨ t.ref ∈ ts.map Trail.ref) : us.length ≤ ts.length := by
  refine Nat.le_of_not_lt fun hlt => ?_
  obtain ⟨vs, rfl⟩ := ht.prefix_of_length_le hu (Nat.le_of_lt hlt)
  obtain ⟨t, vs, rfl⟩ : ∃ t vs', vs = t :: vs' := by
    cases vs with
    | nil => simp at hlt
    | cons t vs => exact ⟨t, vs, rfl⟩
  rcases hstop t (hu.occurs _ _ (by simp)) with hnone | hm
  · obtain ⟨c, hc⟩ := hu.declared t (by simp)
    cases hnone.symm.trans hc
  · have hnd := hu.nodup
    rw [List.map_append, List.map_cons] at hnd
    exact (List.nodup_append.mp hnd).2.2 _ hm _ List.mem_cons_self rfl

/-- The walk of a report against the tree it unfolds to: the visits are the longest beginning in
which every ref is declared and none repeats, and if the tree goes on, one failure follows. -/
structure WalksUnfolding (report : Report) (ts : List Trail) : Prop where
  opening : report.Opening ts
  longest : ∀ us, report.Opening us → us <+: ts
  visits : ∀ (i : Nat) (t : Trail), ts[i]? = some t →
    ∃ c, report.component? t.ref = some c ∧ report.walk[i]? = some (.ok ⟨c, t.depth⟩)
  rest : report.walk.drop ts.length =
    ((report.occurrence? ts.length).map fun t => .error (t.fault report)).toList
  text : ∀ t, report.occurrence? ts.length = some t → (t.fault report).text = t.objection report
  answers : ∀ k, (Walk.start report).take report k = (List.range k).map (report.walk[·]?)
  endless : ∀ r, report.Reachable r → Relation.TransGen report.IsChild r r →
    ∀ i, ∃ t, report.occurrence? i = some t

theorem exists_walksUnfolding (report : Report) : ∃ ts, report.WalksUnfolding ts := by
  have hstart : Walk.Follows report (Walk.start report) [⟨[], report.root⟩] [] :=
    Walk.follows_start
  obtain ⟨ts, hg⟩ := hstart.exists_gives
  obtain ⟨hvisits, hnodup, hrest, hstopped⟩ := hg
  rw [List.append_nil] at hnodup hstopped
  have hopen : report.Opening ts := by
    refine ⟨fun i t ht => (hvisits i t ht).1, fun t ht => ?_, hnodup⟩
    obtain ⟨i, hi⟩ := List.mem_iff_getElem?.mp ht
    obtain ⟨-, c, hc, -⟩ := hvisits i t hi
    exact ⟨c, hc⟩
  exact ⟨ts, hopen, fun us hu => hu.prefix_of_length_le hopen (hu.length_le hopen hstopped),
    fun i t ht => (hvisits i t ht).2, hrest, fun t _ => Trail.text_fault,
    fun _ => Walk.take_eq_map_getElem?, fun _ => exists_occurrence_of_cycle⟩

end Report

end ComponentIdentity
