import ComponentIdentity.Proofs.Declared

/-! # Additions to a report

A component is refused for a zero ref, otherwise by a full report, otherwise for a
ref that is declared. A list of components makes a report if none of them is
refused, and fails as the first of those that are. A report that goes on after
refusals is made of the components that it took, as if no others had come.
-/

namespace ComponentIdentity.Report

variable {report report' : Report} {m : Metadata} {cs calls front front' after : List Component}
  {c : Component} {fault : ReportFault}

/-- There is room behind the listed components for another one, and its ref is positive and not
among theirs. -/
def Fits (front : List Component) (c : Component) : Prop :=
  c.ref ≠ 0 ∧ c.ref ∉ front.map (·.ref) ∧ front.length < maxComponents

instance : Decidable (Fits front c) := inferInstanceAs (Decidable (_ ∧ _ ∧ _))

/-- Why a component is refused behind the listed ones. -/
inductive Refused (front : List Component) (c : Component) : ReportFault → Prop where
  | zeroRef : c.ref = 0 → Refused front c .zeroRef
  | full : c.ref ≠ 0 → maxComponents ≤ front.length → Refused front c .tooManyComponents
  | declared : c.ref ≠ 0 → front.length < maxComponents → c.ref ∈ front.map (·.ref) →
      Refused front c (.declaredTwice c.ref)

theorem exists_refused (h : ¬ Fits front c) : ∃ fault, Refused front c fault := by
  by_cases hz : c.ref = 0
  · exact ⟨_, .zeroRef hz⟩
  · by_cases hl : front.length < maxComponents
    · have hm : c.ref ∈ front.map (·.ref) := by
        by_contra hm
        exact h ⟨hz, hm, hl⟩
      exact ⟨_, .declared hz hl hm⟩
    · exact ⟨_, .full hz (Nat.le_of_not_lt hl)⟩

theorem Refused.of_perm (h : Refused front c fault) (hp : front.Perm front') :
    Refused front' c fault := by
  cases h with
  | zeroRef h => exact .zeroRef h
  | full hz h => exact .full hz (hp.length_eq ▸ h)
  | declared hz hl h => exact .declared hz (hp.length_eq ▸ hl) ((hp.map (·.ref)).mem_iff.mp h)

theorem add_of_refused (h : Refused report.toList c fault) : report.add c = .error fault := by
  unfold add
  cases h with
  | zeroRef hz => rw [dif_pos hz]
  | full hz hl =>
    rw [length_toList] at hl
    rw [dif_neg hz, dif_neg (Nat.not_lt_of_le hl)]
  | declared hz hl hm =>
    rw [length_toList] at hl
    rw [map_ref_toList, Std.ExtTreeMap.mem_keys] at hm
    rw [dif_neg hz, dif_pos hl, if_pos hm]

def taken (calls : List Component) : List Component :=
  calls.foldl (fun front c => if Fits front c then front ++ [c] else front) []

theorem taken_concat :
    taken (calls ++ [c]) = if Fits (taken calls) c then taken calls ++ [c] else taken calls := by
  rw [taken, List.foldl_append]
  rfl

/-- Adds a component, or leaves the report as it is if it refuses. -/
def offer (report : Report) (c : Component) : Report :=
  match report.add c with
  | .ok report => report
  | .error _ => report

def ofOffers (m : Metadata) (calls : List Component) : Report := calls.foldl offer (empty m)

theorem ofOffers_append :
    ofOffers m (calls ++ after) = after.foldl offer (ofOffers m calls) := List.foldl_append

section Made

variable (h : ofComponents m front = .ok report)
include h

theorem add_eq_error_of_refused (hr : Refused front c fault) : report.add c = .error fault := by
  obtain ⟨hd, hr'⟩ := declares_of_ofComponents h
  exact add_of_refused (hr.of_perm (hr'.toList_perm hd.nodup).symm)

theorem exists_add_of_fits (hf : Fits front c) : ∃ report', report.add c = .ok report' := by
  have hd : Declarable (front ++ [c]) :=
    declarable_concat_iff.mpr ⟨(declares_of_ofComponents h).1, hf⟩
  obtain ⟨report', hr⟩ := exists_ofComponents (m := m) hd
  rw [ofComponents_concat, h] at hr
  exact ⟨report', hr⟩

theorem add_eq_error_iff_refused : report.add c = .error fault ↔ Refused front c fault := by
  refine ⟨fun he => ?_, add_eq_error_of_refused h⟩
  have hf : ¬ Fits front c := by
    intro hf
    obtain ⟨report', hok⟩ := exists_add_of_fits h hf
    cases he.symm.trans hok
  obtain ⟨fault', hr⟩ := exists_refused hf
  cases he.symm.trans (add_eq_error_of_refused h hr)
  exact hr

end Made

/-- A list fails as the first of its components that is refused. -/
theorem ofComponents_eq_error_iff : ofComponents m cs = .error fault ↔
    ∃ front c back, cs = front ++ c :: back ∧ Declarable front ∧ Refused front c fault := by
  constructor
  · intro h
    induction cs using List.reverseRecOn with
    | nil => cases h
    | append_singleton cs c ih =>
      rw [ofComponents_concat, Except.bind_eq_error_iff] at h
      rcases h with h | ⟨report, hr, ha⟩
      · obtain ⟨front, d, back, rfl, hd, hf⟩ := ih h
        exact ⟨front, d, back ++ [c], by simp, hd, hf⟩
      · exact ⟨cs, c, [], rfl, (declares_of_ofComponents hr).1,
          (add_eq_error_iff_refused hr).mp ha⟩
  · rintro ⟨front, c, back, rfl, hd, hf⟩
    obtain ⟨report, hr⟩ := exists_ofComponents (m := m) hd
    have ha := add_eq_error_of_refused hr hf
    rw [ofComponents] at hr
    rw [ofComponents, List.foldlM_append, hr]
    change (c :: back).foldlM add report = .error fault
    rw [List.foldlM_cons, ha]
    rfl

theorem ofComponents_taken (m : Metadata) (calls : List Component) :
    ofComponents m (taken calls) = .ok (ofOffers m calls) := by
  induction calls using List.reverseRecOn with
  | nil => rfl
  | append_singleton calls c ih =>
    rw [taken_concat, ofOffers_append, List.foldl_cons, List.foldl_nil, offer]
    by_cases hf : Fits (taken calls) c
    · obtain ⟨report, ha⟩ := exists_add_of_fits ih hf
      rw [if_pos hf, ofComponents_concat, ih, ha]
      exact ha
    · obtain ⟨fault, hr⟩ := exists_refused hf
      rw [if_neg hf, add_eq_error_of_refused ih hr]
      exact ih

theorem pairwise_ref_toList : (report.toList.map (·.ref)).Pairwise (· < ·) := by
  rw [map_ref_toList]
  exact report.components.ordered_keys.imp fun hlt => compareOfLessAndEq_eq_lt.mp hlt

theorem refused_iff (hl : front.length < maxComponents) : Refused front c fault ↔
    c.ref = 0 ∧ fault = .zeroRef ∨
      c.ref ≠ 0 ∧ c.ref ∈ front.map (·.ref) ∧ fault = .declaredTwice c.ref := by
  constructor
  · rintro (hz | ⟨-, hf⟩ | ⟨hz, -, hm⟩)
    · exact .inl ⟨hz, rfl⟩
    · exact absurd hl (Nat.not_lt_of_le hf)
    · exact .inr ⟨hz, hm, rfl⟩
  · rintro (⟨hz, rfl⟩ | ⟨hz, hm, rfl⟩)
    · exact .zeroRef hz
    · exact .declared hz hl hm

/-- What comes of a list that is not too long. The report declares the listed components and no
others, in whatever order they are listed, and flattened it lists them by ascending refs; a failure
is that of the first component with a zero ref or the ref of an earlier one. -/
structure Builds (m : Metadata) (cs : List Component) : Prop where
  exists_iff : (∃ report, ofComponents m cs = .ok report) ↔
    (∀ c ∈ cs, c.ref ≠ 0) ∧ (cs.map (·.ref)).Nodup
  declares : ∀ report, ofComponents m cs = .ok report → report.metadata = m ∧
    ∀ r c, report.component? r = some c ↔ c ∈ cs ∧ c.ref = r
  of_perm : ∀ report cs', ofComponents m cs = .ok report → cs'.Perm cs →
    ofComponents m cs' = .ok report
  flat : ∀ report, ofComponents m cs = .ok report → report.toList.Perm cs ∧
    (report.toList.map (·.ref)).Pairwise (· < ·) ∧
    ofComponents report.metadata report.toList = .ok report
  error_iff : ∀ fault, ofComponents m cs = .error fault ↔ ∃ front c back,
    cs = front ++ c :: back ∧ (∀ d ∈ front, d.ref ≠ 0) ∧ (front.map (·.ref)).Nodup ∧
    (c.ref = 0 ∧ fault = .zeroRef ∨
      c.ref ≠ 0 ∧ c.ref ∈ front.map (·.ref) ∧ fault = .declaredTwice c.ref)

theorem builds_of_length_le (hl : cs.length ≤ maxComponents) : Builds m cs where
  exists_iff := by
    constructor
    · rintro ⟨report, h⟩
      obtain ⟨hd, -⟩ := declares_of_ofComponents h
      exact ⟨hd.ref_ne_zero, hd.nodup⟩
    · rintro ⟨hz, hn⟩
      exact exists_ofComponents ⟨hz, hn, hl⟩
  declares report h := by
    obtain ⟨-, hm, hc⟩ := declares_of_ofComponents h
    exact ⟨hm, hc⟩
  of_perm report cs' h hp := by
    obtain ⟨hd, hr⟩ := declares_of_ofComponents h
    exact ofComponents_eq_ok_iff.mpr ⟨hd.of_perm hp, hr.of_perm hp⟩
  flat report h := by
    obtain ⟨hd, hr⟩ := declares_of_ofComponents h
    exact ⟨hr.toList_perm hd.nodup, pairwise_ref_toList, ofComponents_of_perm (.refl _)⟩
  error_iff fault := by
    have hlt : ∀ {front c back}, cs = front ++ c :: back → front.length < maxComponents := by
      rintro front c back rfl
      rw [List.length_append, List.length_cons] at hl
      omega
    rw [ofComponents_eq_error_iff]
    constructor
    · rintro ⟨front, c, back, he, hd, hf⟩
      exact ⟨front, c, back, he, hd.ref_ne_zero, hd.nodup, (refused_iff (hlt he)).mp hf⟩
    · rintro ⟨front, c, back, he, hz, hn, hf⟩
      exact ⟨front, c, back, he, ⟨hz, hn, Nat.le_of_lt (hlt he)⟩, (refused_iff (hlt he)).mpr hf⟩

/-- What comes of a sequence of calls. The report is made of the components that were taken; a
further one is taken if it fits them, and otherwise it is refused and leaves no trace, whatever
comes after it. -/
structure Keeps (m : Metadata) (calls : List Component) : Prop where
  ofComponents_eq : ofComponents m (taken calls) = .ok (ofOffers m calls)
  sublist : (taken calls).Sublist calls
  add_eq_ok_iff : ∀ c report, (ofOffers m calls).add c = .ok report ↔
    Fits (taken calls) c ∧ report = ofOffers m (calls ++ [c])
  add_eq_error_iff : ∀ c fault, (ofOffers m calls).add c = .error fault ↔
    Refused (taken calls) c fault
  unchanged : ∀ c fault, (ofOffers m calls).add c = .error fault →
    ofOffers m (calls ++ [c]) = ofOffers m calls ∧
    ∀ after, ofOffers m (calls ++ c :: after) = ofOffers m (calls ++ after)

theorem taken_sublist (calls : List Component) : (taken calls).Sublist calls := by
  induction calls using List.reverseRecOn with
  | nil => exact .slnil
  | append_singleton calls c ih =>
    rw [taken_concat]
    split
    · exact ih.append (.refl [c])
    · exact ih.trans (List.sublist_append_left calls [c])

theorem offer_of_error (h : report.add c = .error fault) : report.offer c = report := by
  rw [offer, h]

theorem keeps (m : Metadata) (calls : List Component) : Keeps m calls where
  ofComponents_eq := ofComponents_taken m calls
  sublist := taken_sublist calls
  add_eq_ok_iff c report := by
    have hmade := ofComponents_taken m calls
    rw [ofOffers_append, List.foldl_cons, List.foldl_nil, offer]
    by_cases hf : Fits (taken calls) c
    · obtain ⟨report', ha⟩ := exists_add_of_fits hmade hf
      rw [ha, and_iff_right hf, Except.ok.injEq, eq_comm]
    · obtain ⟨fault, hr⟩ := exists_refused hf
      simp only [add_eq_error_of_refused hmade hr, hf, reduceCtorEq, false_and]
  add_eq_error_iff c fault := add_eq_error_iff_refused (ofComponents_taken m calls)
  unchanged c fault h := by
    simp only [ofOffers_append, List.foldl_cons, List.foldl_nil, offer_of_error h, implies_true,
      and_self]

/-- A list that is not too long makes a report or fails as the first of its components that is
refused, and a report to which components are added call by call keeps those that it took. -/
theorem builds_and_keeps (m : Metadata) (cs : List Component) :
    (cs.length ≤ maxComponents → Builds m cs) ∧ Keeps m cs :=
  ⟨builds_of_length_le, keeps m cs⟩

def crowdedList : List Component :=
  [.project 1 "P", .file 2 "a", .directory 2 "b", .file 0 "c", .module 3 "M"]

theorem builds_and_keeps_crowdedList :
    crowdedList.length ≤ maxComponents ∧ Builds { root := 1 } crowdedList ∧
      ofComponents { root := 1 } crowdedList = .error (.declaredTwice 2) ∧
      Keeps { root := 1 } crowdedList ∧
      taken crowdedList = [.project 1 "P", .file 2 "a", .module 3 "M"] := by
  have hl : crowdedList.length ≤ maxComponents := by decide
  obtain ⟨hbuilds, hkeeps⟩ := builds_and_keeps { root := 1 } crowdedList
  refine ⟨hl, hbuilds hl, ?_, hkeeps, by decide⟩
  exact ((hbuilds hl).error_iff _).mpr
    ⟨[.project 1 "P", .file 2 "a"], .directory 2 "b", [.file 0 "c", .module 3 "M"], rfl,
      by decide, by decide, .inr (by decide)⟩

end ComponentIdentity.Report
