import ComponentIdentity.Proofs.Branches
import ComponentIdentity.Proofs.Deterministic

/-! # Namespaces of projects

A seed joins the key of the root, the branch and the size of the index by colons.
The size is read off its end, but nothing tells the key from the branch: seeds of
one size agree if one key goes on, behind a colon, with what the branch of the
other begins with. All other seeds differ, and with them the identifiers.
-/

namespace ComponentIdentity

namespace Key

variable {s t s' t' : String}

theorem toList_join : (join s t).toList = s.toList ++ ':' :: t.toList := by
  simp [join]

theorem eq_or_exists_join {between : List Char} (hs : s'.toList = s.toList ++ between)
    (ht : ':' :: t.toList = between ++ ':' :: t'.toList) :
    s = s' ∧ t = t' ∨ ∃ u, s' = join s u ∧ t = join u t' := by
  cases between with
  | nil =>
    rw [List.append_nil] at hs
    exact .inl ⟨(String.toList_inj.mp hs).symm, String.toList_inj.mp (List.cons.inj ht).2⟩
  | cons x between =>
    rw [List.cons_append, List.cons.injEq] at ht
    obtain ⟨rfl, ht⟩ := ht
    refine .inr ⟨.ofList between, String.toList_inj.mp ?_, String.toList_inj.mp ?_⟩
    · rw [toList_join, String.toList_ofList, hs]
    · rw [toList_join, String.toList_ofList, ht]

theorem join_eq_join_iff : join s t = join s' t' ↔ s = s' ∧ t = t' ∨
    (∃ u, s' = join s u ∧ t = join u t') ∨ ∃ u, s = join s' u ∧ t' = join u t := by
  constructor
  · intro h
    have hl := congrArg String.toList h
    rw [toList_join, toList_join] at hl
    rcases List.append_eq_append_iff.mp hl with ⟨between, hs, ht⟩ | ⟨between, hs, ht⟩
    · exact (eq_or_exists_join hs ht).imp_right .inl
    · rcases eq_or_exists_join hs ht with ⟨rfl, rfl⟩ | hu
      · exact .inl ⟨rfl, rfl⟩
      · exact .inr (.inr hu)
  · rintro (⟨rfl, rfl⟩ | ⟨u, rfl, rfl⟩ | ⟨u, rfl, rfl⟩)
    · rfl
    · simp [join, String.append_assoc]
    · simp [join, String.append_assoc]

theorem colon_mem_join : ':' ∈ (join s t).toList := by
  simp [toList_join]

end Key

namespace Report

variable {report report' : Report} {n n' : Nat}

/-- The declared key of the root; a root that declares none counts as one with an empty key. -/
def projectKey (report : Report) : String :=
  ((report.component? report.root).bind (·.key)).getD ""

def branchText (report : Report) : String := report.branch.getD ""

theorem branch_eq_some_iff {b : String} :
    report.branch = some b ↔ report.branchText = b ∧ b ≠ "" := by
  constructor
  · intro h
    exact ⟨by rw [branchText, h, Option.getD_some], (Metadata.named_eq_some_iff.mp h).2⟩
  · rintro ⟨h, hne⟩
    unfold branchText at h
    cases hb : report.branch with
    | none => exact absurd (by rw [← h, hb, Option.getD_none]) hne
    | some b' => rw [← h, hb, Option.getD_some]

theorem branchText_inj :
    report.branchText = report'.branchText ↔ report.branch = report'.branch := by
  constructor
  · intro h
    ext b
    rw [branch_eq_some_iff, branch_eq_some_iff, h]
  · intro h
    rw [branchText, branchText, h]

theorem seed_eq : report.seed n =
    "compref:" ++ (Key.join report.projectKey report.branchText ++ (":" ++ toString n)) := by
  simp only [seed, projectKey, branchText, Key.join, String.append_assoc]

theorem seed_eq_iff_join : report.seed n = report'.seed n' ↔ n = n' ∧
    Key.join report.projectKey report.branchText =
      Key.join report'.projectKey report'.branchText := by
  constructor
  · intro h
    obtain rfl := eq_of_seed_eq h
    rw [seed_eq, seed_eq] at h
    refine ⟨rfl, ?_⟩
    simpa using h
  · rintro ⟨rfl, h⟩
    rw [seed_eq, seed_eq, h]

/-- The other key goes on behind this one's with what this one's branch begins with. -/
def Overlaps (report report' : Report) : Prop :=
  ∃ s, report'.projectKey = Key.join report.projectKey s ∧
    report.branchText = Key.join s report'.branchText

theorem seed_eq_iff : report.seed n = report'.seed n' ↔ n = n' ∧
    (report.projectKey = report'.projectKey ∧ report.branch = report'.branch ∨
      report.Overlaps report' ∨ report'.Overlaps report) := by
  rw [seed_eq_iff_join, Key.join_eq_join_iff, branchText_inj]
  rfl

theorem Overlaps.colon_mem (h : report.Overlaps report') :
    ':' ∈ report'.projectKey.toList ∧ ':' ∈ report.branchText.toList := by
  obtain ⟨s, hk, hb⟩ := h
  rw [hk, hb]
  exact ⟨Key.colon_mem_join, Key.colon_mem_join⟩

def seedNames (report : Report) (n k : Nat) : List (Uuid × Bytes) :=
  (.oid, Bytes.ofText (report.seed n)) :: (List.range k).map (report.nameAt n)

theorem exists_name_of_mem_upcoming {uuid : String} {k : Nat}
    (h : uuid ∈ (Minter.seeded (report.seed n)).upcoming k) :
    ∃ name, (report.seedSpace n, name) ∈ report.seedNames n k ∧
      (Uuid.nameBased (report.seedSpace n) name).toString = uuid := by
  obtain ⟨i, hi, rfl⟩ := Minter.mem_upcoming_iff.mp h
  refine ⟨_, List.mem_cons_of_mem _ (List.mem_map_of_mem (List.mem_range.mpr hi)), ?_⟩
  change _ = (Minter.seeded (report.seed n)).ids (0 + i)
  rw [Nat.zero_add]
  rfl

section Apart

variable {k k' : Nat} (hn : CollisionFree (report.seedNames n k ++ report'.seedNames n' k'))
  (hs : report.seed n ≠ report'.seed n')
include hn hs

theorem seedSpace_ne : report.seedSpace n ≠ report'.seedSpace n' := by
  intro he
  have hname := hn _ (List.mem_append_left _ List.mem_cons_self) _
    (List.mem_append_right _ List.mem_cons_self) he
  exact hs (Bytes.ofText_inj (Prod.mk.inj hname).2)

theorem not_mem_upcoming {uuid : String} (h : uuid ∈ (Minter.seeded (report.seed n)).upcoming k) :
    uuid ∉ (Minter.seeded (report'.seed n')).upcoming k' := by
  intro h'
  obtain ⟨name, hm, rfl⟩ := exists_name_of_mem_upcoming h
  obtain ⟨name', hm', he⟩ := exists_name_of_mem_upcoming h'
  have hname := hn _ (List.mem_append_left _ hm) _ (List.mem_append_right _ hm')
    (Uuid.toString_inj he.symm)
  exact seedSpace_ne hn hs (Prod.mk.inj hname).1

end Apart

/-- The seeds of two reports, each against an index of some size. They agree for one size and one
project on one branch, or where a key goes on with what a branch begins with, which takes a colon in
both. Where they differ, so do the namespaces and all identifiers, unless names collide. -/
structure SeedsCompared (report report' : Report) (n n' : Nat) : Prop where
  eq_iff : report.seed n = report'.seed n' ↔ n = n' ∧
    (report.projectKey = report'.projectKey ∧ report.branch = report'.branch ∨
      report.Overlaps report' ∨ report'.Overlaps report)
  apart : ':' ∉ report'.projectKey.toList ∨ ':' ∉ report.branchText.toList →
    ':' ∉ report.projectKey.toList ∨ ':' ∉ report'.branchText.toList →
    report.projectKey ≠ report'.projectKey ∨ report.branch ≠ report'.branch →
    report.seed n ≠ report'.seed n'
  disjoint : ∀ k k', CollisionFree (report.seedNames n k ++ report'.seedNames n' k') →
    report.seed n ≠ report'.seed n' → report.seedSpace n ≠ report'.seedSpace n' ∧
      ∀ uuid ∈ (Minter.seeded (report.seed n)).upcoming k,
        uuid ∉ (Minter.seeded (report'.seed n')).upcoming k'

theorem seeds_compared (report report' : Report) (n n' : Nat) :
    SeedsCompared report report' n n' where
  eq_iff := seed_eq_iff
  apart h h' hne := by
    rw [Ne, seed_eq_iff]
    rintro ⟨-, ⟨hk, hb⟩ | ho | ho⟩
    · exact hne.elim (· hk) (· hb)
    · exact h.elim (· ho.colon_mem.1) (· ho.colon_mem.2)
    · exact h'.elim (· ho.colon_mem.1) (· ho.colon_mem.2)
  disjoint k k' hn hs := ⟨seedSpace_ne hn hs, fun _ => not_mem_upcoming hn hs⟩

/-- A project whose key begins with its group. -/
def groupedProject : Report := (Workspace.loneProject "org:app").onBranch (some "dev")

/-- The group as a project, on a branch that begins with the name of the other project. -/
def branchedGroup : Report := (Workspace.loneProject "org").onBranch (some "app:dev")

/-- Two projects on two branches whose deterministic identifiers are all the same. -/
theorem seed_groupedProject_eq :
    groupedProject.projectKey = "org:app" ∧ branchedGroup.projectKey = "org" ∧
      groupedProject.branch = some "dev" ∧ branchedGroup.branch = some "app:dev" ∧
      ∀ n, groupedProject.seed n = branchedGroup.seed n ∧
        groupedProject.seedSpace n = branchedGroup.seedSpace n := by
  have hk : groupedProject.projectKey = "org:app" := by decide +kernel
  have hk' : branchedGroup.projectKey = "org" := by decide +kernel
  have hseed : ∀ n, groupedProject.seed n = branchedGroup.seed n := by
    intro n
    rw [seed_eq_iff_join, hk, hk']
    exact ⟨rfl, by decide +kernel⟩
  exact ⟨hk, hk', by decide, by decide, fun n => ⟨hseed n, by rw [seedSpace, seedSpace, hseed n]⟩⟩

end Report

end ComponentIdentity
