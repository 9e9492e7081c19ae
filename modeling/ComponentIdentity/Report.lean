import Std.Data.ExtTreeMap
import ComponentIdentity.Error

/-! # Reports

A report maps each declared ref to its component. Its only way to grow is
`Report.add`, so refs are positive, declared once and agree with the components.
-/

namespace ComponentIdentity

structure Report where
  metadata : Metadata
  components : Std.ExtTreeMap Ref Component
  ref_eq : ∀ {r : Ref} {c : Component}, components[r]? = some c → c.ref = r
  ref_ne_zero : ∀ {r : Ref} {c : Component}, components[r]? = some c → r ≠ 0
  size_le : components.size ≤ maxComponents

namespace Report

@[ext]
theorem ext {a b : Report} (hm : a.metadata = b.metadata) (hc : a.components = b.components) :
    a = b := by
  cases a; cases b; simp_all

instance : DecidableEq Report := fun a b =>
  decidable_of_iff (a.metadata = b.metadata ∧ a.components = b.components)
    ⟨fun h => Report.ext h.1 h.2, fun h => h ▸ ⟨rfl, rfl⟩⟩

def empty (m : Metadata) : Report where
  metadata := m
  components := ∅
  ref_eq := by simp
  ref_ne_zero := by simp
  size_le := by simp

/-- The component declared under a ref. -/
def component? (report : Report) (r : Ref) : Option Component := report.components[r]?

def size (report : Report) : Nat := report.components.size

/-- The components in the order of their refs. -/
def toList (report : Report) : List Component := report.components.toList.map (·.2)

def root (report : Report) : Ref := report.metadata.root

def branch (report : Report) : Option String := report.metadata.effectiveBranch

def insertFresh (report : Report) (c : Component) (hz : c.ref ≠ 0)
    (hs : report.size < maxComponents) : Report where
  metadata := report.metadata
  components := report.components.insert c.ref c
  ref_eq := by
    intro r d h
    rw [Std.ExtTreeMap.getElem?_insert] at h
    split at h
    next heq => cases h; exact Std.LawfulEqCmp.eq_of_compare heq
    next => exact report.ref_eq h
  ref_ne_zero := by
    intro r d h
    rw [Std.ExtTreeMap.getElem?_insert] at h
    split at h
    next heq => exact Std.LawfulEqCmp.eq_of_compare heq ▸ hz
    next => exact report.ref_ne_zero h
  size_le := by
    rw [Std.ExtTreeMap.size_insert]
    have := report.size_le
    simp only [size] at hs
    split <;> omega

/-- Refuses a zero ref, then a report that is full, then a ref declared before. -/
def add (report : Report) (c : Component) : Except ReportFault Report :=
  if hz : c.ref = 0 then .error .zeroRef
  else if hs : report.size < maxComponents then
    if c.ref ∈ report.components then .error (.declaredTwice c.ref)
    else .ok (report.insertFresh c hz hs)
  else .error .tooManyComponents

/-- Adds the components in list order; the first that is refused decides the failure. -/
def ofComponents (m : Metadata) (components : List Component) : Except ReportFault Report :=
  components.foldlM add (empty m)

end Report

end ComponentIdentity
