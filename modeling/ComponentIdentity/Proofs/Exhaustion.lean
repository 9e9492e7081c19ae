import Mathlib.Logic.Function.Iterate
import ComponentIdentity.Proofs.Run
import ComponentIdentity.Proofs.Unfolding

/-! # Walks come to an end

Each visit puts a whole child list before a walk, so what is still to be visited
may grow for long. But a visit takes one declared ref from those not visited yet,
and the first ref that would not do so ends the walk. Hence the number of
components bounds the calls of a walk, and those of every resolution with it.
-/

namespace ComponentIdentity

namespace Walk

variable {report : Report} {w w' : Walk} {v : Visit} {vs : List Visit} {k : Nat}

/-- The walk after `k` calls of `next`. -/
def after (report : Report) (k : Nat) (w : Walk) : Walk :=
  (fun w => (w.next report).2)^[k] w

def answer (report : Report) (k : Nat) (w : Walk) : Option Item :=
  ((w.after report k).next report).1

def visit? : Option Item → Option Visit
  | some (.ok v) => some v
  | some (.error _) => none
  | none => none

def visits (report : Report) (k : Nat) (w : Walk) : List Visit :=
  (w.take report k).filterMap visit?

theorem after_succ : w.after report (k + 1) = ((w.after report k).next report).2 :=
  Function.iterate_succ_apply' ..

theorem take_succ : w.take report (k + 1) = w.take report k ++ [w.answer report k] := by
  induction k generalizing w with
  | zero => rfl
  | succ k ih =>
    rw [take, ih, take]
    rfl

theorem answer_eq : w.answer report k = (w.items report)[k]? := by
  have h : w.take report (k + 1) = _ := take_eq_map_getElem?
  rw [take_succ, take_eq_map_getElem?, List.range_succ, List.map_append] at h
  exact List.singleton_inj.mp (List.append_cancel_left h)

theorem visits_succ :
    w.visits report (k + 1) = w.visits report k ++ (visit? (w.answer report k)).toList := by
  rw [visits, take_succ, List.filterMap_append, List.filterMap_cons, List.filterMap_nil]
  cases visit? (w.answer report k) <;> rfl

theorem next_of_stack_eq_nil (h : w.stack = []) : w.next report = (none, w) := by
  rw [next, h]

/-- A walk gives no more items than it has refs to visit, and one for a failure. -/
theorem length_items_le (report : Report) (w : Walk) :
    (w.items report).length ≤ (w.unvisited report).length + 1 := by
  induction w using induction_next report with
  | h w ih =>
    rw [items_eq]
    split
    · exact Nat.zero_le _
    · exact Nat.le_add_left 1 _
    next v w' hn =>
      have hlt := unvisited_length_lt hn
      have hle := ih v w' hn
      rw [List.length_cons]
      omega

theorem length_unvisited_start (report : Report) :
    ((start report).unvisited report).length = report.size := by
  simp [unvisited, start, Report.size, Std.ExtTreeMap.length_keys]

/-- The child lists of the visited components, one behind the other. -/
def listed (vs : List Visit) : List Ref := vs.flatMap (·.component.children)

theorem listed_concat : listed (vs ++ [v]) = listed vs ++ v.component.children := by
  rw [listed, List.flatMap_append, List.flatMap_singleton, listed]

/-- The refs that a walk has visited are those of its visits, each of them once. Unless the walk has
ended, the root and all children that were listed are before it, less one ref for each visit. -/
structure Accounts (report : Report) (w : Walk) (vs : List Visit) : Prop where
  declared : ∀ v ∈ vs, report.component? v.component.ref = some v.component
  nodup : (vs.map (·.component.ref)).Nodup
  mem_visited_iff : ∀ r, r ∈ w.visited ↔ r ∈ vs.map (·.component.ref)
  balance : w.stack = [] ∨ w.stack.length + vs.length = 1 + (listed vs).length

theorem accounts_start (report : Report) : Accounts report (start report) [] where
  declared := by simp
  nodup := by simp
  mem_visited_iff := by simp [start]
  balance := .inr rfl

namespace Accounts

variable (h : Accounts report w vs)
include h

theorem visit (hn : w.next report = (some (.ok v), w')) : Accounts report w' (vs ++ [v]) := by
  obtain ⟨p, rest, hs, hc, hp, -, rfl⟩ := next_eq_visit hn
  have href : v.component.ref = p.ref := Report.ref_of_component? hc
  refine ⟨?_, ?_, fun r => ?_, .inr ?_⟩
  · rw [List.forall_mem_append, List.forall_mem_singleton, href]
    exact ⟨h.declared, hc⟩
  · rw [List.map_append, List.map_singleton, href, (List.perm_append_singleton _ _).nodup_iff]
    exact List.nodup_cons.mpr ⟨fun hm => hp ((h.mem_visited_iff _).mpr hm), h.nodup⟩
  · simp only [Std.ExtTreeSet.mem_insert, Std.LawfulEqCmp.compare_eq_iff_eq, h.mem_visited_iff,
      List.map_append, List.map_singleton, List.mem_append, List.mem_singleton, href]
    rw [or_comm, eq_comm]
  · -- The visit takes its own ref from the stack and puts its children there.
    have hb := h.balance
    rw [hs] at hb
    have hb := hb.resolve_left (List.cons_ne_nil _ _)
    rw [List.length_cons] at hb
    have hlen : v.pending.length = v.component.children.length := List.length_map _
    rw [listed_concat, List.length_append, List.length_append, List.length_append,
      List.length_singleton, hlen]
    omega

theorem failed : Accounts report w.failed vs :=
  ⟨h.declared, h.nodup, h.mem_visited_iff, .inl rfl⟩

theorem stack_le : w.stack.length ≤ 1 + (listed vs).length := by
  rcases h.balance with hs | hb
  · rw [hs]
    exact Nat.zero_le _
  · omega

end Accounts

theorem accounts_after (report : Report) (k : Nat) :
    Accounts report ((start report).after report k) ((start report).visits report k) := by
  induction k with
  | zero => exact accounts_start report
  | succ k ih =>
    rw [after_succ, visits_succ, answer]
    match hn : ((start report).after report k).next report with
    | (none, w) =>
      have hs := next_fst_eq_none_iff.mp (congrArg Prod.fst hn)
      rw [next_of_stack_eq_nil hs] at hn
      cases hn
      rwa [visit?, Option.toList_none, List.append_nil]
    | (some (.error fault), w) =>
      obtain ⟨rfl, -⟩ := next_eq_fault hn
      rw [visit?, Option.toList_none, List.append_nil]
      exact ih.failed
    | (some (.ok v), w) => exact ih.visit hn

end Walk

namespace Resolution.Run

variable {report : Report} {index : IdentityIndex} {r r' : Run} {k : Nat}
  {out : Except Error Resolution × Minter}

/-- How a run ends, if it does so within `k` calls of `next`. -/
def within? (report : Report) (index : IdentityIndex) :
    Nat → Run → Option (Except Error Resolution × Minter)
  | 0, _ => none
  | k + 1, r =>
    match r.walk.next report with
    | (none, _) => some (.ok (r.resolution report), r.minter)
    | (some x, w) =>
      match (step index report.branch r.state x).run r.minter with
      | (.error e, m) => some (.error e, m)
      | (.ok s, m) => within? report index k ⟨w, s, m⟩

theorem within?_of_ends (h : Ends report index r out) :
    r.within? report index (k + 1) = some out := by
  cases h with
  | done hs => simp only [within?, Walk.next_of_stack_eq_nil hs]
  | failed hw => simp only [within?, hw, step, Stateful.run_throw]
  | refused hw hv => simp only [within?, hw, step, hv]

theorem within?_of_step (h : Step report index r r') :
    r.within? report index (k + 1) = r'.within? report index k := by
  obtain ⟨hw, hv⟩ := h
  simp only [within?, hw, step, hv]

/-- A run ends at some call of `next`: fewer calls do not end it, and more change nothing. -/
theorem exists_within?_eq (report : Report) (index : IdentityIndex) (r : Run) :
    ∃ n ≤ (r.walk.unvisited report).length + 1, ∀ k,
      r.within? report index k = if n ≤ k then some (r.rest report index) else none := by
  obtain ⟨w, s, m⟩ := r
  -- A run that goes on has made a visit, so the refs not visited yet get fewer.
  induction w using Walk.induction_next report generalizing s m with
  | h w ih =>
    rcases ends_or_step report index ⟨w, s, m⟩ with ⟨out, he⟩ | ⟨r', hs⟩
    · refine ⟨1, Nat.le_add_left 1 _, fun k => ?_⟩
      cases k with
      | zero => rfl
      | succ k => rw [within?_of_ends he, rest_of_ends he, if_pos (Nat.le_add_left 1 k)]
    · have hrest := rest_of_step hs
      have hwithin := fun k => within?_of_step (k := k) hs
      cases hs with
      | @visit v w' s' m' hw hv =>
        obtain ⟨n, hn, heq⟩ := ih v w' hw s' m'
        have hlt := Walk.unvisited_length_lt hw
        refine ⟨n + 1, Nat.succ_le_succ (Nat.le_trans hn hlt), fun k => ?_⟩
        cases k with
        | zero => rfl
        | succ k => simp only [hwithin, heq, hrest, Nat.add_le_add_iff_right]

end Resolution.Run

namespace Report

/-- The walk of a report gives one item for each component at most, and perhaps a failure. Behind
them every call of `next` gives nothing and leaves the walk as it is. What is still before the walk
is bounded by the child lists of the components visited so far. A resolution, whatever its index
and minter are, calls the walk at most once more than there are components. -/
structure Exhaustible (report : Report) : Prop where
  length_le : report.walk.length ≤ report.size + 1
  answer_eq : ∀ k, (Walk.start report).answer report k = report.walk[k]?
  exhausted : ∀ k, report.walk.length ≤ k →
    ((Walk.start report).after report k).next report =
      (none, (Walk.start report).after report k)
  accounts : ∀ k,
    Walk.Accounts report ((Walk.start report).after report k) ((Walk.start report).visits report k)
  stack_le : ∀ k, ((Walk.start report).after report k).stack.length ≤
    1 + (Walk.listed ((Walk.start report).visits report k)).length
  resolves : ∀ index m, ∃ n ≤ report.size + 1, ∀ k,
    (Resolution.Run.start report m).within? report index k =
      if n ≤ k then some ((report.resolve index).run m) else none

theorem exhaustible (report : Report) : report.Exhaustible where
  length_le := Walk.length_unvisited_start report ▸ Walk.length_items_le report _
  answer_eq _ := Walk.answer_eq
  exhausted k hk := by
    have hnone : (Walk.start report).answer report k = none :=
      Walk.answer_eq.trans (List.getElem?_eq_none hk)
    exact Walk.next_of_stack_eq_nil (Walk.next_fst_eq_none_iff.mp hnone)
  accounts := Walk.accounts_after report
  stack_le k := (Walk.accounts_after report k).stack_le
  resolves index m := by
    rw [Resolution.Run.resolve_run, ← Walk.length_unvisited_start report]
    exact Resolution.Run.exists_within?_eq report index (.start report m)

/-- Around a cycle each component is visited and then the failure follows. -/
example : ((Report.ofComponents { root := 1 }
    [.withChildren (.project 1 "P") [2, 2, 1], .withChildren (.directory 2 "a") [1]]).toOption.map
      fun report => (report.walk.length, report.size)) = some (3, 2) := by decide +kernel

end Report

end ComponentIdentity
