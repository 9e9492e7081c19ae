import ComponentIdentity.Proofs.Identifiers
import ComponentIdentity.Proofs.Keys

/-! # Components that cannot be reached

A resolution looks up the refs that its walk comes to and no others. So whatever
else a report declares, be it malformed, cyclic or at odds with a key of the tree,
the resolution is the same or fails in the same way, after the same calls of the
minter. Only the number of components that were not reached is another one.
-/

namespace ComponentIdentity

namespace Report

variable {report report' : Report}

/-- The second report starts at the same root on the same branch and has the same component, or
none, under every ref that can be reached in the first one. -/
structure AgreesWhereReached (report report' : Report) : Prop where
  root_eq : report'.root = report.root
  branch_eq : report'.branch = report.branch
  component?_eq : ∀ r, report.Reachable r → report'.component? r = report.component? r

theorem Reachable.mem_of_closed {refs : List Ref} {r : Ref} (h : report.Reachable r)
    (hroot : report.root ∈ refs)
    (hclosed : (refs.filterMap report.component?).flatMap (·.children) ⊆ refs) : r ∈ refs := by
  induction h with
  | refl => exact hroot
  | @tail p r _ hs ih =>
    obtain ⟨c, hc, hm⟩ := hs
    have hp : c ∈ refs.filterMap report.component? := List.mem_filterMap.mpr ⟨p, ih, hc⟩
    exact hclosed (List.mem_flatMap.mpr ⟨c, hp, hm⟩)

end Report

namespace Walk

variable {report report' : Report} {w w' : Walk} {v : Visit}

def StaysReached (report : Report) (w : Walk) : Prop :=
  ∀ p ∈ w.stack, report.Reachable p.ref

theorem staysReached_start : (start report).StaysReached report := by
  intro p hp
  rw [start, List.mem_singleton] at hp
  subst hp
  exact .refl

theorem StaysReached.next (h : w.StaysReached report)
    (hw : w.next report = (some (.ok v), w')) : w'.StaysReached report := by
  obtain ⟨p, rest, hs, hc, -, -, rfl⟩ := next_eq_visit hw
  rw [StaysReached, hs, List.forall_mem_cons] at h
  intro q hq
  rcases List.mem_append.mp hq with hq | hq
  · obtain ⟨child, hm, rfl⟩ := List.mem_map.mp hq
    exact h.1.tail ⟨_, hc, hm⟩
  · exact h.2 q hq

/-- A walk looks up the first ref that it has before it, and nothing else. -/
theorem StaysReached.next_eq (h : w.StaysReached report) (ha : report.AgreesWhereReached report') :
    w.next report' = w.next report := by
  rcases w with ⟨stack, visited⟩
  cases stack with
  | nil => rfl
  | cons p rest => simp only [Walk.next, ha.component?_eq p.ref (h p List.mem_cons_self)]

theorem StaysReached.items_eq (h : w.StaysReached report)
    (ha : report.AgreesWhereReached report') : w.items report' = w.items report := by
  induction w using induction_next report with
  | h w ih =>
    rw [Walk.items_eq report, Walk.items_eq report', h.next_eq ha]
    match hw : w.next report with
    | (none, _) => rfl
    | (some (.error _), _) => rfl
    | (some (.ok v), w') =>
      dsimp only
      rw [ih v w' hw (h.next hw)]

end Walk

theorem Report.AgreesWhereReached.walk_eq {report report' : Report}
    (h : report.AgreesWhereReached report') : report'.walk = report.walk := by
  have hstart : Walk.start report' = Walk.start report := by rw [Walk.start, Walk.start, h.root_eq]
  rw [Report.walk, Report.walk, hstart]
  exact Walk.staysReached_start.items_eq h

namespace Resolution

variable {report report' : Report} {index : IdentityIndex} {m : Minter}

/-- One outcome for two reports: the same failure, or the same cache and the same counts except for
the components that were not reached, whose numbers differ as the sizes of the reports do. -/
inductive SameReached (report report' : Report) :
    Except Error Resolution × Minter → Except Error Resolution × Minter → Prop where
  | ok {cache : RefCache} {stats : Stats} {unreachable : Nat} {m : Minter} :
      unreachable + report.size = stats.unreachable + report'.size →
      SameReached report report' (.ok ⟨cache, stats⟩, m) (.ok ⟨cache, { stats with unreachable }⟩, m)
  | error {e : Error} {m : Minter} : SameReached report report' (.error e, m) (.error e, m)

theorem resolved_le_size {res : Resolution} {m' : Minter}
    (h : (report.resolve index).run m = (.ok res, m')) : res.stats.resolved ≤ report.size := by
  obtain ⟨r, done, -, ht, rfl, -⟩ := exists_traced_of_resolve h
  have := ht.isComplete.resolved_add_unreachable
  omega

/-- Reports that agree where they are reached resolve alike, with the same calls of the minter. -/
theorem sameReached_of_agrees (h : report.AgreesWhereReached report') (index : IdentityIndex)
    (m : Minter) :
    SameReached report report' ((report.resolve index).run m) ((report'.resolve index).run m) := by
  have hr := Run.resolve_run report index m
  have hr' := Run.resolve_run report' index m
  have hwalk : (Walk.start report').items report' = (Walk.start report).items report := h.walk_eq
  simp only [Run.rest, Run.start, h.branch_eq, hwalk] at hr hr'
  rcases hs : (((Walk.start report).items report).foldlM (step index report.branch) {}).run m with
    ⟨e | s, m'⟩
  · rw [hs] at hr hr'
    rw [hr, hr']
    exact .error
  · rw [hs] at hr hr'
    have hle := resolved_le_size hr
    have hle' := resolved_le_size hr'
    rw [hr, hr']
    refine .ok ?_
    dsimp only [Run.resolution] at hle hle' ⊢
    omega

/-- Besides the tree there are a project with a key of the tree that lists the root, a module in a
cycle with it and a directory without a path. -/
def crowdedReport : Report :=
  (Report.ofComponents { root := 1, branch := some "dev" }
    [.withChildren (.project 1 "P") [2, 5], .withChildren (.file 2 "a") [3],
      .withChildren (.module 3 "M") [4], .file 4 "b", .directory 5 "c",
      .withChildren (.project 7 "P") [1, 8], .withChildren (.module 8 "N") [7, 70],
      { ref := 9, kind := .directory }]).toOption.getD (.empty { root := 1 })

theorem sameReached_crowdedReport : mixedReport.AgreesWhereReached crowdedReport ∧
    ∃ res m', (mixedReport.resolve rootIndex.toIndex).run repeating = (.ok res, m') ∧
      res.stats = ⟨5, 1, 4, 1⟩ ∧
      (crowdedReport.resolve rootIndex.toIndex).run repeating =
        (.ok ⟨res.cache, ⟨5, 1, 4, 3⟩⟩, m') := by
  have hclosed : ([1, 2, 3, 4, 5].filterMap mixedReport.component?).flatMap (·.children) ⊆
      [1, 2, 3, 4, 5] := by decide +kernel
  have hsame : [1, 2, 3, 4, 5].map crowdedReport.component? =
      [1, 2, 3, 4, 5].map mixedReport.component? := by decide +kernel
  have hagrees : mixedReport.AgreesWhereReached crowdedReport := by
    refine ⟨by decide +kernel, by decide +kernel, fun r hr => List.map_inj_left.mp hsame r ?_⟩
    exact hr.mem_of_closed (by decide +kernel) hclosed
  have hstats : ((mixedReport.resolve rootIndex.toIndex).run repeating).1.toOption.map (·.stats) =
      some ⟨5, 1, 4, 1⟩ := by decide +kernel
  obtain ⟨⟨cache, stats⟩, m', h, rfl⟩ := Except.exists_of_toOption_map hstats
  have hsame := sameReached_of_agrees hagrees rootIndex.toIndex repeating
  rw [h] at hsame
  refine ⟨hagrees, _, m', h, rfl, ?_⟩
  generalize (crowdedReport.resolve rootIndex.toIndex).run repeating = out at hsame
  cases hsame with
  | @ok _ _ unreachable _ hcount =>
    have hsize : mixedReport.size = 6 := by decide +kernel
    have hsize' : crowdedReport.size = 8 := by decide +kernel
    obtain rfl : unreachable = 3 := by
      dsimp only at hcount
      omega
    rfl

end Resolution

end ComponentIdentity
