import Std.Data.ExtTreeSet
import ComponentIdentity.Report

/-! # Walks

A walk visits a report from its root, each component before its descendants and
the children in declared order. It stops at the first ref that is not declared
or was met before, so it ends on every report, cyclic ones included.
-/

namespace ComponentIdentity

/-- A ref that is still to be visited, and the component whose child it is. -/
structure Pending where
  ref : Ref
  parent : Option Ref
  depth : Nat
  deriving DecidableEq, Repr

def Pending.missing (p : Pending) : ReportFault :=
  match p.parent with
  | none => .missingRoot p.ref
  | some parent => .missingChild parent p.ref

structure Visit where
  component : Component
  depth : Nat
  deriving DecidableEq, Repr

/-- The pending occurrences below a visited component, in declared order. -/
def Visit.pending (v : Visit) : List Pending :=
  v.component.children.map fun child => ⟨child, some v.component.ref, v.depth + 1⟩

structure Walk where
  stack : List Pending
  visited : Std.ExtTreeSet Ref

namespace Walk

abbrev Item := Except ReportFault Visit

def start (report : Report) : Walk := ⟨[⟨report.root, none, 0⟩], ∅⟩

/-- A failed walk has nothing left to visit. -/
def failed (w : Walk) : Walk := { w with stack := [] }

def next (report : Report) (w : Walk) : Option Item × Walk :=
  match w.stack with
  | [] => (none, w)
  | p :: rest =>
    match report.component? p.ref with
    | none => (some (.error p.missing), w.failed)
    | some c =>
      if p.ref ∈ w.visited then (some (.error (.reachedTwice p.ref)), w.failed)
      else
        (some (.ok ⟨c, p.depth⟩),
          ⟨(Visit.mk c p.depth).pending ++ rest, w.visited.insert p.ref⟩)

/-- The declared refs that the walk has not visited. -/
def unvisited (report : Report) (w : Walk) : List Ref :=
  report.components.keys.filter fun r => decide (r ∉ w.visited)

theorem unvisited_length_lt {report : Report} {w w' : Walk} {v : Visit}
    (h : w.next report = (some (.ok v), w')) :
    (w'.unvisited report).length < (w.unvisited report).length := by
  rcases w with ⟨stack, visited⟩
  rcases stack with _ | ⟨p, rest⟩
  · simp [next] at h
  simp only [next] at h
  split at h
  · simp at h
  next c hc =>
    split at h
    · simp at h
    next hp =>
      obtain ⟨-, rfl⟩ := Prod.mk.inj h
      have hmem : p.ref ∈ report.components.keys := by
        rw [Std.ExtTreeMap.mem_keys, Std.ExtTreeMap.mem_iff_isSome_getElem?]
        simp_all [Report.component?]
      have hsub : unvisited report ⟨(Visit.mk c p.depth).pending ++ rest, visited.insert p.ref⟩ =
          (unvisited report ⟨p :: rest, visited⟩).filter fun r => r ≠ p.ref := by
        simp only [unvisited, List.filter_filter]
        congr 1
        funext r
        simp [Std.ExtTreeSet.mem_insert, eq_comm (a := r)]
      rw [hsub, List.length_filter_lt_length_iff_exists]
      exact ⟨p.ref, by simp [unvisited, hmem, hp], by simp⟩

/-- What the walk still gives, after the items `seen`. -/
def collect (report : Report) (w : Walk) (seen : Array Item) : Array Item :=
  match _h : w.next report with
  | (none, _) => seen
  | (some (.error fault), _) => seen.push (.error fault)
  | (some (.ok v), w') => collect report w' (seen.push (.ok v))
termination_by (w.unvisited report).length
decreasing_by exact unvisited_length_lt ‹_›

def items (report : Report) (w : Walk) : List Item := (collect report w #[]).toList

/-- The answers of the first `n` calls of `next`. -/
def take (report : Report) : Nat → Walk → List (Option Item)
  | 0, _ => []
  | n + 1, w => (w.next report).1 :: take report n (w.next report).2

end Walk

namespace Report

/-- The items of the walk from the root: visits, and at most one failure at the end. -/
def walk (report : Report) : List Walk.Item := (Walk.start report).items report

end Report

end ComponentIdentity
