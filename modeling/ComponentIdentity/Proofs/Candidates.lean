import ComponentIdentity.Proofs.Fresh

/-! # What a run takes from its minter

A component whose key the index knows takes nothing. Every other one takes the
next candidates of the minter, up to the first that is not in use, and there are
eight of them at most. So each call of the minter belongs to a component, and a
run collides exactly where the next eight candidates are in use.
-/

namespace ComponentIdentity

/-- An index whose lookups do not fail. -/
structure IdentityIndex.Answers (index : IdentityIndex) : Prop where
  uuidForKey_ok : ∀ key, ∃ known, index.uuidForKey key = .ok known
  containsUuid_ok : ∀ uuid, ∃ contained, index.containsUuid uuid = .ok contained

namespace Resolution

variable {report : Report} {index : IdentityIndex} {cache : RefCache} {m m' : Minter}
  {key uuid : String} {e : Error} {attempts : Nat}

/-- Minting fails exactly when all candidates that it may try are in use. -/
theorem mintUnused_eq_error_iff (ha : index.Answers) :
    (mintUnused index cache key attempts).run m = (.error e, m') ↔
      e = .identifierCollision key ∧ m' = m.advance attempts ∧
        ∀ i < attempts, inUse index cache (m.ids (m.minted + i)) = .ok true := by
  induction attempts generalizing m with
  | zero =>
    constructor
    · rintro ⟨⟩
      exact ⟨rfl, rfl, fun _ hi => absurd hi (Nat.not_lt_zero _)⟩
    · rintro ⟨rfl, rfl, -⟩
      rfl
  | succ attempts ih =>
    rw [mintUnused_succ, Nat.forall_lt_succ_left]
    split
    next e' hu =>
      obtain ⟨contained, hc⟩ := ha.containsUuid_ok (m.ids m.minted)
      unfold inUse at hu
      split at hu
      · cases hu
      · cases hc.symm.trans hu
    next hu =>
      rw [ih, Minter.advance_advance, Nat.add_comm 1 attempts]
      simp only [Minter.ids_advance, Minter.minted_advance, Nat.add_zero, hu, true_and,
        Nat.add_assoc, Nat.add_comm 1]
    next hu =>
      constructor
      · rintro ⟨⟩
      · rintro ⟨-, -, hused, -⟩
        cases hu.symm.trans hused

/-- With lookups that do not fail, identifying fails without a candidate if the index knows the
key, and else after eight that are in use. -/
theorem identify_eq_error_of_answers (ha : index.Answers)
    (h : (identify index cache key).run m = (.error e, m')) :
    (∃ uuid, e = .corruptIndex key uuid ∧ m' = m) ∨
      index.uuidForKey key = .ok none ∧ e = .identifierCollision key ∧
        m' = m.advance mintAttempts ∧
        ∀ i < mintAttempts, inUse index cache (m.ids (m.minted + i)) = .ok true := by
  rw [identify_run] at h
  split at h
  next hk =>
    obtain ⟨known, hok⟩ := ha.uuidForKey_ok key
    cases hok.symm.trans hk
  next uuid hk =>
    split at h
    · cases h
      exact .inl ⟨uuid, rfl, rfl⟩
    · cases h
  next hk =>
    split at h
    next hm =>
      cases h
      exact .inr ⟨hk, (mintUnused_eq_error_iff ha).mp hm⟩
    · cases h

/-- A component as a run resolved it, with the number of candidates that it took. -/
structure Grant where
  component : ResolvedComponent
  taken : Nat

namespace Grant

variable {grants before : List Grant} {g : Grant} {origin : Origin}

def total (grants : List Grant) : Nat := (grants.map (·.taken)).sum

theorem total_concat : total (grants ++ [g]) = total grants + g.taken := by
  simp [total]

def InUse (index : IdentityIndex) (grants : List Grant) (uuid : String) : Prop :=
  uuid ∈ grants.map (·.component.uuid) ∨ index.containsUuid uuid = .ok true

/-- What a component is due after others: the identifier that the index knows and no candidate, or
the candidates behind those that the others took, up to the first that is not in use. -/
structure Due (index : IdentityIndex) (m : Minter) (before : List Grant) (g : Grant) : Prop where
  known : ∀ uuid, index.uuidForKey g.component.key = .ok (some uuid) →
    g.taken = 0 ∧ g.component.uuid = uuid
  unknown : index.uuidForKey g.component.key = .ok none → ∃ n < 8, g.taken = n + 1 ∧
    m.ids (m.minted + total before + n) = g.component.uuid ∧
    ¬ InUse index before g.component.uuid ∧
    ∀ i < n, InUse index before (m.ids (m.minted + total before + i))

theorem inUse_iff
    (hu : ∀ uuid, cache.containsUuid uuid = true ↔ uuid ∈ grants.map (·.component.uuid)) :
    InUse index grants uuid ↔ inUse index cache uuid = .ok true := by
  rw [InUse, ← hu, inUse]
  cases cache.containsUuid uuid <;> simp

theorem due_of_identify
    (hu : ∀ uuid, cache.containsUuid uuid = true ↔ uuid ∈ grants.map (·.component.uuid))
    (h : (identify index cache key).run (m.advance (total grants)) = (.ok (uuid, origin), m')) :
    ∃ k, m' = m.advance (total grants + k) ∧ ∀ r, Due index m grants ⟨⟨r, key, uuid⟩, k⟩ := by
  rw [identify_run] at h
  split at h
  · cases h
  next known hk =>
    split at h
    · cases h
    · cases h
      refine ⟨0, rfl, fun r => ⟨fun uuid' hk' => ?_, fun hn => ?_⟩⟩
      · cases hk.symm.trans hk'
        exact ⟨rfl, rfl⟩
      · cases hk.symm.trans hn
  next hk =>
    split at h
    · cases h
    next hm =>
      cases h
      obtain ⟨n, hn, rfl, hid, hfree, hused⟩ := mintUnused_eq_ok hm
      refine ⟨n + 1, Minter.advance_advance, fun r => ⟨fun uuid' hk' => ?_, fun _ => ?_⟩⟩
      · cases hk.symm.trans hk'
      · refine ⟨n, hn, rfl, hid, ?_, fun i hi => (inUse_iff hu).mpr (hused i hi)⟩
        rw [inUse_iff hu, hfree]
        exact fun he => Bool.noConfusion (Except.ok.inj he)

theorem taken_le_of_due (ha : index.Answers) (h : Due index m before g) :
    g.taken ≤ 8 * if index.knows g.component.key then 0 else 1 := by
  obtain ⟨_ | uuid, hk⟩ := ha.uuidForKey_ok g.component.key
  · obtain ⟨n, hn, ht, -⟩ := h.unknown hk
    have hkn : index.knows g.component.key = false := by simp [IdentityIndex.knows, hk]
    rw [hkn, if_neg Bool.false_ne_true]
    omega
  · have hkn : index.knows g.component.key = true := IdentityIndex.knows_iff.mpr ⟨uuid, hk⟩
    rw [hkn, (h.known uuid hk).1]
    exact Nat.zero_le _

def AllDue (index : IdentityIndex) (m : Minter) (grants : List Grant) : Prop :=
  ∀ before g after, grants = before ++ g :: after → Due index m before g

theorem allDue_concat_iff : AllDue index m (grants ++ [g]) ↔
    AllDue index m grants ∧ Due index m grants g := by
  constructor
  · intro h
    refine ⟨fun before g' after he => h before g' (after ++ [g]) ?_, h grants g [] rfl⟩
    rw [he, List.append_assoc, List.cons_append]
  · rintro ⟨h, hg⟩ before g' after he
    rcases after.eq_nil_or_concat with rfl | ⟨after, last, rfl⟩
    · obtain ⟨rfl, hlast⟩ := List.append_inj' he rfl
      cases hlast
      exact hg
    · rw [List.concat_eq_append, ← List.cons_append, ← List.append_assoc] at he
      exact h before g' after (List.append_inj' he rfl).1

theorem total_le (ha : index.Answers) (h : AllDue index m grants) :
    total grants ≤ 8 * grants.countP fun g => !index.knows g.component.key := by
  induction grants using List.reverseRecOn with
  | nil => exact Nat.zero_le _
  | append_singleton grants g ih =>
    obtain ⟨hgrants, hg⟩ := allDue_concat_iff.mp h
    have hle := ih hgrants
    have hg := taken_le_of_due ha hg
    rw [total_concat, List.countP_append, List.countP_singleton]
    cases hk : index.knows g.component.key <;> simp [hk] at hg ⊢ <;> omega

end Grant

open Grant (InUse AllDue total)

/-- The components of a run in the order of its visits, each with what it was due. -/
structure Ledger (report : Report) (index : IdentityIndex) (m : Minter) (r : Run)
    (grants : List Grant) : Prop where
  order : ∃ visits : List Visit, report.walk = visits.map .ok ++ r.walk.items report ∧
    visits.map (·.component.ref) = grants.map (·.component.ref)
  due : AllDue index m grants
  stored_iff : ∀ x c, r.state.cache.get? x = some c ↔ c ∈ grants.map (·.component) ∧ c.ref = x
  minter_eq : r.minter = m.advance (total grants)
  minted_eq : r.state.stats.minted = grants.countP fun g => !index.knows g.component.key

theorem ledger_start : Ledger report index m (.start report m) [] where
  order := ⟨[], rfl, rfl⟩
  due before g after he := by simp at he
  stored_iff := by simp [Run.start]
  minter_eq := rfl
  minted_eq := rfl

namespace Ledger

variable {r r' : Run} {grants : List Grant}

theorem containsUuid_iff (h : Ledger report index m r grants) (hc : r.state.cache.Consistent)
    (uuid : String) :
    r.state.cache.containsUuid uuid = true ↔ uuid ∈ grants.map (·.component.uuid) := by
  rw [hc.containsUuid_iff]
  simp only [h.stored_iff, List.mem_map]
  constructor
  · rintro ⟨x, c, ⟨⟨g, hg, rfl⟩, -⟩, rfl⟩
    exact ⟨g, hg, rfl⟩
  · rintro ⟨g, hg, rfl⟩
    exact ⟨g.component.ref, g.component, ⟨⟨g, hg, rfl⟩, rfl⟩, rfl⟩

/-- A visit adds one component, with what it is due. -/
theorem step (h : Ledger report index m r grants) (hc : r.state.cache.Consistent)
    (hs : Run.Step report index r r') : ∃ g, Ledger report index m r' (grants ++ [g]) := by
  cases hs with
  | @visit v w s m₁ hw hv =>
    obtain ⟨key, scopes, uuid, origin, cache, -, hid, hp, rfl⟩ := visit_eq_ok hv
    obtain ⟨hfree, -, -, rfl⟩ := RefCache.put_eq_ok_iff.mp hp
    rw [h.minter_eq] at hid
    obtain ⟨k, hm, hdue⟩ := Grant.due_of_identify (h.containsUuid_iff hc) hid
    obtain ⟨-, -, -, -, horigin⟩ := identify_sourced hid
    refine ⟨⟨⟨v.component.ref, key, uuid⟩, k⟩, ?_, ?_, ?_, ?_, ?_⟩
    · obtain ⟨visits, hwalk, hrefs⟩ := h.order
      refine ⟨visits ++ [v], ?_, by simp [hrefs]⟩
      rw [hwalk, Walk.items_eq report r.walk, hw]
      simp
    · exact Grant.allDue_concat_iff.mpr ⟨h.due, hdue _⟩
    · intro x c
      rw [RefCache.get?_insertFresh_eq_some_iff hfree, h.stored_iff, List.map_append,
        List.mem_append, or_and_right, List.map_singleton, List.mem_singleton]
      refine or_congr_right ⟨?_, ?_⟩
      · rintro ⟨rfl, rfl⟩
        exact ⟨rfl, rfl⟩
      · rintro ⟨rfl, rfl⟩
        exact ⟨rfl, rfl⟩
    · rw [hm, Grant.total_concat]
    · rw [List.countP_append, List.countP_singleton, ← h.minted_eq]
      cases origin <;> simp_all [Stats.count]

theorem exists_of_reaches (h : Run.Reaches report index (.start report m) r) :
    ∃ grants, Ledger report index m r grants := by
  induction h with
  | refl => exact ⟨[], ledger_start⟩
  | tail hr hs ih =>
    obtain ⟨grants, h⟩ := ih
    obtain ⟨n, hid⟩ := Run.exists_identified hr
    obtain ⟨g, h⟩ := h.step hid.consistent hs
    exact ⟨_, h⟩

end Ledger

/-- The next component has a key that the index does not know, and the next eight candidates are
in use. -/
structure Exhausted (report : Report) (index : IdentityIndex) (r : Run) (grants : List Grant)
    (key : String) : Prop where
  reached : ∃ v w scopes, r.walk.next report = (some (.ok v), w) ∧
    keyFor report.branch r.state v = .ok (key, scopes)
  unknown : index.uuidForKey key = .ok none
  used : ∀ uuid ∈ r.minter.upcoming 8, InUse index grants uuid

namespace Ledger

variable {r : Run} {grants : List Grant} {x : Except Error Resolution}

theorem used_iff (h : Ledger report index m r grants) (hc : r.state.cache.Consistent) :
    (∀ uuid ∈ r.minter.upcoming 8, InUse index grants uuid) ↔
      ∀ i < mintAttempts, inUse index r.state.cache (r.minter.ids (r.minter.minted + i)) =
        .ok true := by
  simp only [Minter.mem_upcoming_iff, ← Grant.inUse_iff (h.containsUuid_iff hc)]
  constructor
  · exact fun hu i hi => hu _ ⟨i, hi, rfl⟩
  · rintro hu _ ⟨i, hi, rfl⟩
    exact hu i hi

theorem ends_of_exhausted (h : Ledger report index m r grants) (hc : r.state.cache.Consistent)
    (ha : index.Answers) (he : Exhausted report index r grants key) :
    Run.Ends report index r (.error (.identifierCollision key), r.minter.advance 8) := by
  obtain ⟨⟨v, w, scopes, hw, hk⟩, hu, hused⟩ := he
  have hmint : (mintUnused index r.state.cache key mintAttempts).run r.minter =
      (.error (.identifierCollision key), r.minter.advance mintAttempts) :=
    (mintUnused_eq_error_iff ha).mpr ⟨rfl, rfl, (h.used_iff hc).mp hused⟩
  refine .refused hw ?_
  rw [visit_run, hk]
  simp only [identify_run, hu]
  rw [hmint]
  rfl

theorem minter_of_ends (h : Ledger report index m r grants) (ha : index.Answers)
    (hr : Run.Reaches report index (.start report m) r) (he : Run.Ends report index r (x, m')) :
    (∃ key, x = .error (.identifierCollision key) ∧ Exhausted report index r grants key ∧
        m' = r.minter.advance 8) ∨
      (∀ key, x ≠ .error (.identifierCollision key)) ∧ m' = r.minter := by
  obtain ⟨n, hid⟩ := Run.exists_identified hr
  cases he with
  | done => exact .inr ⟨fun _ => by simp, rfl⟩
  | failed => exact .inr ⟨fun _ => by simp, rfl⟩
  | @refused v w e _ hw hv =>
    rcases visit_eq_error hv with ⟨fault, -, rfl, rfl⟩ | ⟨key, scopes, hk, hi⟩ |
      ⟨key, scopes, uuid, origin, hk, hi, hp⟩
    · exact .inr ⟨fun _ => by simp, rfl⟩
    · rcases identify_eq_error_of_answers ha hi with ⟨uuid, rfl, rfl⟩ | ⟨hu, rfl, rfl, hused⟩
      · exact .inr ⟨fun _ => by simp, rfl⟩
      · have hused := (h.used_iff hid.consistent).mpr hused
        exact .inl ⟨key, rfl, ⟨⟨v, w, scopes, hw, hk⟩, hu, hused⟩, rfl⟩
    · -- The cache takes every component that got an identifier.
      have hput := hid.consistent.put_eq_ok (c := ⟨v.component.ref, key, uuid⟩)
        (Run.free_of_reaches hr hw).1 (keyFor_eq_ok_iff.mp hk).2.2 (identify_eq_ok hi).1
      cases hput.symm.trans hp

theorem collides_of_exhausted (h : Ledger report index m r grants) (ha : index.Answers)
    (hr : Run.Reaches report index (.start report m) r)
    (he : Exhausted report index r grants key) :
    (report.resolve index).run m = (.error (.identifierCollision key), r.minter.advance 8) := by
  obtain ⟨n, hid⟩ := Run.exists_identified hr
  rw [Run.resolve_run, Run.rest_of_reaches hr]
  exact Run.rest_of_ends (h.ends_of_exhausted hid.consistent ha he)

theorem length_eq (h : Ledger report index m r grants) (hs : r.walk.stack = []) :
    grants.length = report.walk.length := by
  obtain ⟨visits, hwalk, hrefs⟩ := h.order
  rw [Walk.items_eq_nil hs, List.append_nil] at hwalk
  have hlen := congrArg List.length hrefs
  rw [List.length_map, List.length_map] at hlen
  rw [hwalk, List.length_map, hlen]

end Ledger

/-- What a resolution took from its minter. It ended at the run `r` and had resolved `grants` by
then. It collides exactly if it comes to a component for which the next eight candidates are in
use. Then it has taken these eight too, and otherwise none but those it granted. -/
structure Accounted (report : Report) (index : IdentityIndex) (m : Minter)
    (x : Except Error Resolution) (m' : Minter) (r : Run) (grants : List Grant) : Prop where
  reaches : Run.Reaches report index (.start report m) r
  ends : Run.Ends report index r (x, m')
  ledger : Ledger report index m r grants
  resolved : ∀ res, x = .ok res → res = r.resolution report ∧ grants.length = report.walk.length
  collides_iff : ∀ key, x = .error (.identifierCollision key) ↔ ∃ r' grants',
    Run.Reaches report index (.start report m) r' ∧ Ledger report index m r' grants' ∧
      Exhausted report index r' grants' key
  collided : ∀ key, x = .error (.identifierCollision key) → m' = m.advance (total grants + 8)
  settled : (∀ key, x ≠ .error (.identifierCollision key)) → m' = m.advance (total grants)
  calls_le : ∃ calls, m' = m.advance calls ∧ calls ≤ 8 * (r.state.stats.minted + 1)

theorem exists_accounted (ha : index.Answers) {x : Except Error Resolution}
    (h : (report.resolve index).run m = (x, m')) :
    ∃ r grants, Accounted report index m x m' r grants := by
  obtain ⟨r, hr, he⟩ := Run.exists_run report index m
  rw [h] at he
  obtain ⟨grants, hl⟩ := Ledger.exists_of_reaches hr
  have hend := hl.minter_of_ends ha hr he
  have htotal : total grants ≤ 8 * r.state.stats.minted :=
    hl.minted_eq ▸ Grant.total_le ha hl.due
  refine ⟨r, grants, hr, he, hl, ?_, fun key => ⟨?_, ?_⟩, ?_, ?_, ?_⟩
  · rintro res rfl
    cases he with
    | done hs => exact ⟨rfl, hl.length_eq hs⟩
  · rintro rfl
    rcases hend with ⟨_, ⟨⟩, hex, -⟩ | ⟨hne, -⟩
    · exact ⟨r, grants, hr, hl, hex⟩
    · exact absurd rfl (hne key)
  · rintro ⟨r', grants', hr', hl', hex⟩
    have hcollides := hl'.collides_of_exhausted ha hr' hex
    exact congrArg Prod.fst (h.symm.trans hcollides)
  · rintro key rfl
    rcases hend with ⟨_, -, -, rfl⟩ | ⟨hne, -⟩
    · rw [hl.minter_eq, Minter.advance_advance]
    · exact absurd rfl (hne key)
  · intro hne
    rcases hend with ⟨key, rfl, -, -⟩ | ⟨-, rfl⟩
    · exact absurd rfl (hne key)
    · exact hl.minter_eq
  · rcases hend with ⟨-, -, -, rfl⟩ | ⟨-, rfl⟩
    · refine ⟨total grants + 8, ?_, by omega⟩
      rw [hl.minter_eq, Minter.advance_advance]
    · exact ⟨total grants, hl.minter_eq, by omega⟩

/-- Seven candidates give four components their identifiers. A minter that has one identifier only
is tried eight times for the first of them. -/
theorem exists_accounted_mixedReport :
    rootIndex.toIndex.Answers ∧
      (∃ res m' r grants, m'.minted = 7 ∧
        Accounted mixedReport rootIndex.toIndex repeating (.ok res) m' r grants) ∧
      ∃ m' r grants, m'.minted = 8 ∧
        Accounted mixedReport rootIndex.toIndex (.ofList ["u"])
          (.error (.identifierCollision "P:dev:a")) m' r grants := by
  have ha : rootIndex.toIndex.Answers := ⟨fun _ => ⟨_, rfl⟩, fun _ => ⟨_, rfl⟩⟩
  have hgranted : ((mixedReport.resolve rootIndex.toIndex).run repeating).1.toOption.map
      (·.stats.minted) = some 4 := by decide +kernel
  have hcalls : ((mixedReport.resolve rootIndex.toIndex).run repeating).2.minted = 7 := by
    decide +kernel
  have hcollides : ((mixedReport.resolve rootIndex.toIndex).run (.ofList ["u"])).1.map
      (·.stats.minted) = .error (.identifierCollision "P:dev:a") := by decide +kernel
  have htried : ((mixedReport.resolve rootIndex.toIndex).run (.ofList ["u"])).2.minted = 8 := by
    decide +kernel
  refine ⟨ha, ?_, ?_⟩
  · obtain ⟨res, m', h, -⟩ := Except.exists_of_toOption_map hgranted
    rw [h] at hcalls
    obtain ⟨r, grants, hacc⟩ := exists_accounted ha h
    exact ⟨res, m', r, grants, hcalls, hacc⟩
  · rcases h : (mixedReport.resolve rootIndex.toIndex).run (.ofList ["u"]) with ⟨e | res, m'⟩
    · rw [h] at hcollides htried
      cases hcollides
      obtain ⟨r, grants, hacc⟩ := exists_accounted ha h
      exact ⟨m', r, grants, htried, hacc⟩
    · rw [h] at hcollides
      cases hcollides

end Resolution

end ComponentIdentity
