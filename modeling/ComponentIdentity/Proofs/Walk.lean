import Mathlib.Tactic.Tauto
import ComponentIdentity.Proofs.Lineage
import ComponentIdentity.Report.Walk

/-! # Walks along lineages

Every ref that a walk has before it stands at the end of a lineage. A walk that
has nothing left has followed every lineage of the report, so it has visited the
reachable refs and no others.
-/

namespace ComponentIdentity

/-- A ref with the components on a way down to it, the nearest first. -/
structure Trail where
  above : List Component
  ref : Ref

namespace Trail

def depth (t : Trail) : Nat := t.above.length

def pending (t : Trail) : Pending := ⟨t.ref, t.above.head?.map (·.ref), t.depth⟩

def below (t : Trail) (c : Component) : List Trail :=
  c.children.map fun child => ⟨c :: t.above, child⟩

variable {t u : Trail} {c : Component}

theorem mem_below_iff : u ∈ t.below c ↔ u.above = c :: t.above ∧ u.ref ∈ c.children := by
  simp only [below, List.mem_map]
  constructor
  · rintro ⟨child, hm, rfl⟩; exact ⟨rfl, hm⟩
  · rintro ⟨ha, hm⟩
    cases u
    cases ha
    exact ⟨_, hm, rfl⟩

theorem depth_of_mem_below (h : u ∈ t.below c) : u.depth = t.depth + 1 := by
  simp [depth, (mem_below_iff.mp h).1]

theorem map_pending_below : (t.below c).map pending = (Visit.mk c t.depth).pending := by
  simp [below, pending, depth, Visit.pending]

end Trail

namespace Walk

variable {report : Report} {w w' : Walk} {v : Visit} {fault : ReportFault}

theorem next_fst_eq_none_iff : (w.next report).1 = none ↔ w.stack = [] := by
  unfold next
  split
  next h => simp [h]
  next p rest h =>
    rw [h]
    split
    · simp
    · split <;> simp

theorem next_eq_visit (h : w.next report = (some (.ok v), w')) :
    ∃ p rest, w.stack = p :: rest ∧ report.component? p.ref = some v.component ∧
      p.ref ∉ w.visited ∧ v.depth = p.depth ∧
      w' = ⟨v.pending ++ rest, w.visited.insert p.ref⟩ := by
  unfold next at h
  split at h
  · simp at h
  next p rest hs =>
    split at h
    · simp at h
    next c hc =>
      split at h
      · simp at h
      next hp =>
        cases h
        exact ⟨p, rest, hs, hc, hp, rfl, rfl⟩

theorem next_eq_fault (h : w.next report = (some (.error fault), w')) :
    w' = w.failed ∧ ∃ p rest, w.stack = p :: rest ∧
      (report.component? p.ref = none ∧ fault = p.missing ∨
        (∃ c, report.component? p.ref = some c) ∧ p.ref ∈ w.visited ∧
          fault = .reachedTwice p.ref) := by
  unfold next at h
  split at h
  · cases h
  next p rest hs =>
    split at h
    next hc =>
      cases h
      exact ⟨rfl, p, rest, hs, .inl ⟨hc, rfl⟩⟩
    next c hc =>
      split at h
      next hp =>
        cases h
        exact ⟨rfl, p, rest, hs, .inr ⟨⟨c, hc⟩, hp, rfl⟩⟩
      · cases h

/-- A walk that fails meets a ref that is not declared or was met before. -/
theorem next_eq_error (h : w.next report = (some (.error fault), w')) :
    ∃ p rest, w.stack = p :: rest ∧ (report.component? p.ref = none ∨ p.ref ∈ w.visited) := by
  obtain ⟨-, p, rest, hs, ⟨hc, -⟩ | ⟨-, hp, -⟩⟩ := next_eq_fault h
  · exact ⟨p, rest, hs, .inl hc⟩
  · exact ⟨p, rest, hs, .inr hp⟩

theorem next_of_fresh {p : Pending} {rest : List Pending} {c : Component}
    (hs : w.stack = p :: rest) (hc : report.component? p.ref = some c) (hp : p.ref ∉ w.visited) :
    w.next report = (some (.ok ⟨c, p.depth⟩),
      ⟨(Visit.mk c p.depth).pending ++ rest, w.visited.insert p.ref⟩) := by
  unfold next
  rw [hs]
  simp only [hc, if_neg hp]

theorem exists_next_fault {p : Pending} {rest : List Pending} (hs : w.stack = p :: rest)
    (hp : report.component? p.ref = none ∨ p.ref ∈ w.visited) :
    ∃ fault, w.next report = (some (.error fault), w.failed) := by
  unfold next
  rw [hs]
  rcases hc : report.component? p.ref with _ | c
  · exact ⟨p.missing, by simp only [hc]⟩
  · have hp : p.ref ∈ w.visited := hp.resolve_left (by simp [hc])
    exact ⟨.reachedTwice p.ref, by simp only [hc, if_pos hp]⟩

theorem toList_collect (seen : Array Item) :
    (collect report w seen).toList = seen.toList ++ w.items report := by
  unfold items
  induction h : (w.unvisited report).length using Nat.strongRecOn generalizing w seen with
  | ind n ih =>
    subst h
    rw [collect, collect]
    split
    · simp
    · simp
    next v w' hn =>
      have hlt := unvisited_length_lt hn
      rw [ih _ hlt (seen.push (.ok v)) rfl, ih _ hlt (#[].push (.ok v)) rfl]
      simp

theorem items_eq (report : Report) (w : Walk) :
    w.items report =
      match w.next report with
      | (none, _) => []
      | (some (.error fault), _) => [.error fault]
      | (some (.ok v), w') => .ok v :: w'.items report := by
  rw [items, collect]
  split
  next hn => simp [hn]
  next hn => simp [hn]
  next hn => simp [hn, toList_collect]

theorem items_eq_nil (h : w.stack = []) : w.items report = [] := by
  rw [items_eq]
  simp [next, h]

/-- What holds of a walk if it holds of the walk after the next visit holds of every walk. -/
theorem induction_next {motive : Walk → Prop} (report : Report)
    (h : ∀ w, (∀ v w', w.next report = (some (.ok v), w') → motive w') → motive w) (w : Walk) :
    motive w := by
  induction hn : (w.unvisited report).length using Nat.strongRecOn generalizing w with
  | ind n ih =>
    subst hn
    exact h w fun v w' hw => ih _ (unvisited_length_lt hw) w' rfl

/-- The trails before a walk and those behind it. What is below a visited component is before
the walk or behind it, and the frontier only climbs. -/
structure Follows (report : Report) (w : Walk) (frontier done : List Trail) : Prop where
  stack_eq : w.stack = frontier.map Trail.pending
  mem_visited : ∀ r, r ∈ w.visited ↔ r ∈ done.map Trail.ref
  nodup : (done.map Trail.ref).Nodup
  lineage : ∀ t ∈ frontier ++ done, report.Lineage t.above t.ref
  climbs : frontier.Pairwise fun t u => u.depth ≤ t.depth
  root_mem : ⟨[], report.root⟩ ∈ frontier ++ done
  below_subset : ∀ t ∈ done, ∀ c, report.component? t.ref = some c →
    t.below c ⊆ frontier ++ done

variable {frontier done : List Trail} {t : Trail}

theorem follows_start : Follows report (start report) [⟨[], report.root⟩] [] where
  stack_eq := rfl
  mem_visited := by simp [start]
  nodup := by simp
  lineage := by simpa using .root
  climbs := by simp
  root_mem := by simp
  below_subset := by simp

namespace Follows

/-- A visit moves the first trail behind the walk and puts those below it before the rest. -/
theorem visit (h : Follows report w frontier done)
    (hn : w.next report = (some (.ok v), w')) :
    ∃ t rest, frontier = t :: rest ∧ report.component? t.ref = some v.component ∧
      t.ref ∉ done.map Trail.ref ∧ v.depth = t.depth ∧
      Follows report w' (t.below v.component ++ rest) (t :: done) := by
  obtain ⟨p, stack, hs, hc, hp, hd, rfl⟩ := next_eq_visit hn
  rw [h.stack_eq, List.map_eq_cons_iff] at hs
  obtain ⟨t, rest, rfl, rfl, rfl⟩ := hs
  have hf : t.ref ∉ done.map Trail.ref := fun hm => hp ((h.mem_visited _).mpr hm)
  have hl := h.lineage t (by simp)
  have hv : Visit.mk v.component t.depth = v := by cases v; cases hd; rfl
  refine ⟨t, rest, rfl, hc, hf, hd, ?_, ?_, ?_, ?_, ?_, ?_, ?_⟩
  · rw [List.map_append, Trail.map_pending_below, hv]
  · intro r
    simp only [Std.ExtTreeSet.mem_insert, h.mem_visited, List.map_cons, List.mem_cons,
      Std.LawfulEqCmp.compare_eq_iff_eq]
    exact or_congr_left eq_comm
  · exact List.nodup_cons.mpr ⟨hf, h.nodup⟩
  · intro u hu
    simp only [List.mem_append, List.mem_cons, or_assoc] at hu
    rcases hu with hu | hu | rfl | hu
    · obtain ⟨ha, hm⟩ := Trail.mem_below_iff.mp hu
      rw [ha]
      exact .child hl hc hm
    · exact h.lineage u (by simp [hu])
    · exact hl
    · exact h.lineage u (by simp [hu])
  · obtain ⟨hle, hpw⟩ := List.pairwise_cons.mp h.climbs
    refine List.pairwise_append.mpr ⟨?_, hpw, ?_⟩
    · refine List.pairwise_of_forall_mem_list fun a ha b hb => ?_
      have hda := Trail.depth_of_mem_below ha
      have hdb := Trail.depth_of_mem_below hb
      omega
    · intro a ha b hb
      rw [Trail.depth_of_mem_below ha]
      exact Nat.le_succ_of_le (hle b hb)
  · have := h.root_mem
    simp only [List.cons_append, List.mem_cons, List.mem_append] at this ⊢
    tauto
  · intro u hu c hcu a ha
    simp only [List.mem_append, List.mem_cons] at hu ⊢
    rcases hu with rfl | hu
    · cases hc.symm.trans hcu
      exact .inl (.inl ha)
    · have := h.below_subset u hu c hcu ha
      simp only [List.cons_append, List.mem_cons, List.mem_append] at this
      tauto

variable (h : Follows report w [] done)
include h

/-- A walk with nothing left has followed every lineage. -/
theorem mem_of_lineage {above : List Component} {r : Ref} (hl : report.Lineage above r) :
    (⟨above, r⟩ : Trail) ∈ done := by
  induction hl with
  | root => simpa using h.root_mem
  | child _ hc hm ih => simpa using h.below_subset _ ih _ hc (Trail.mem_below_iff.mpr ⟨rfl, hm⟩)

theorem mem_refs_iff {r : Ref} : r ∈ done.map Trail.ref ↔ report.Reachable r := by
  rw [Report.reachable_iff_exists_lineage, List.mem_map]
  constructor
  · rintro ⟨t, ht, rfl⟩; exact ⟨t.above, h.lineage t (by simpa using ht)⟩
  · rintro ⟨above, hl⟩; exact ⟨⟨above, r⟩, h.mem_of_lineage hl, rfl⟩

end Follows

end Walk

end ComponentIdentity
