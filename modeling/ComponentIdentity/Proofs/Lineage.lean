import Mathlib.Logic.Relation
import ComponentIdentity.Report

/-! # Lineages

The components above a ref on a way down from the root decide its key. A module
has a key of its own, qualified by the branch; any other component has the key
of the nearest module above it, followed by its path.
-/

namespace ComponentIdentity

namespace Report

variable {report : Report} {r : Ref}

def IsChild (report : Report) (parent child : Ref) : Prop :=
  ∃ c, report.component? parent = some c ∧ child ∈ c.children

def Reachable (report : Report) : Ref → Prop :=
  Relation.ReflTransGen report.IsChild report.root

/-- The components on a way down from the root to a ref, the nearest first. -/
inductive Lineage (report : Report) : List Component → Ref → Prop where
  | root : Lineage report [] report.root
  | child {above : List Component} {parent child : Ref} {c : Component} :
      Lineage report above parent → report.component? parent = some c → child ∈ c.children →
      Lineage report (c :: above) child

theorem Lineage.reachable {above : List Component} (h : report.Lineage above r) :
    report.Reachable r := by
  induction h with
  | root => exact .refl
  | child _ hc hm ih => exact .tail ih ⟨_, hc, hm⟩

theorem reachable_iff_exists_lineage :
    report.Reachable r ↔ ∃ above, report.Lineage above r := by
  constructor
  · intro h
    induction h with
    | refl => exact ⟨[], .root⟩
    | tail _ hc ih =>
      obtain ⟨above, ha⟩ := ih
      obtain ⟨c, hc, hm⟩ := hc
      exact ⟨c :: above, .child ha hc hm⟩
  · rintro ⟨above, h⟩; exact h.reachable

theorem Lineage.root_mem {above : List Component} (h : report.Lineage above r) :
    above = [] ∧ r = report.root ∨ ∃ c ∈ above, report.component? report.root = some c := by
  induction h with
  | root => exact .inl ⟨rfl, rfl⟩
  | child _ hc _ ih =>
    rcases ih with ⟨rfl, rfl⟩ | ⟨d, hd, hr⟩
    · exact .inr ⟨_, List.mem_cons_self, hc⟩
    · exact .inr ⟨d, List.mem_cons_of_mem _ hd, hr⟩

theorem ref_of_component? {c : Component} (h : report.component? r = some c) : c.ref = r :=
  report.ref_eq h

theorem mem_components_iff :
    r ∈ report.components ↔ ∃ c, report.component? r = some c := by
  rw [Std.ExtTreeMap.mem_iff_isSome_getElem?, Option.isSome_iff_exists]
  rfl

end Report

namespace Component

variable {branch : Option String} {c : Component} {above : List Component}

def moduleKey? (branch : Option String) (c : Component) : Option String :=
  c.key.map fun key =>
    match branch with
    | none => key
    | some branch => key ++ ":" ++ branch

/-- The key of a component that stands below the given ones, the nearest first. -/
def referenceKey? (branch : Option String) (above : List Component) (c : Component) :
    Option String :=
  if c.kind.isModule then c.moduleKey? branch
  else do
    let nearest ← above.find? (·.kind.isModule)
    let key ← nearest.moduleKey? branch
    let path ← c.path
    return key ++ ":" ++ path

theorem referenceKey?_of_isModule (h : c.kind.isModule = true) :
    c.referenceKey? branch above = c.moduleKey? branch := by
  simp [referenceKey?, h]

theorem referenceKey?_of_nearest {nearest : Component} {key path : String}
    (h : c.kind.isModule = false) (hn : above.find? (·.kind.isModule) = some nearest)
    (hk : nearest.moduleKey? branch = some key) (hp : c.path = some path) :
    c.referenceKey? branch above = some (key ++ ":" ++ path) := by
  simp [referenceKey?, h, hn, hk, hp]

/-- What a component needs to get a key below the given ones: a declared key or a path that is not
empty, and a key that is not too long. -/
structure Admissible (branch : Option String) (above : List Component) (c : Component) : Prop where
  key_named : c.kind.isModule = true → ∃ key, c.key = some key ∧ key ≠ ""
  path_named : c.kind.isModule = false → ∃ path, c.path = some path ∧ path ≠ ""
  key_le : ∀ key, c.referenceKey? branch above = some key → key.utf8ByteSize ≤ 4000

end Component

/-- A module below a file, a directory after it and a component that nothing leads to. -/
def mixedReport : Report :=
  (Report.ofComponents { root := 1, branch := some "dev" }
    [.withChildren (.project 1 "P") [2, 5], .withChildren (.file 2 "a") [3],
      .withChildren (.module 3 "M") [4], .file 4 "b", .directory 5 "c", .file 6 "d"]).toOption.getD
    (.empty { root := 1 })

end ComponentIdentity
