import ComponentIdentity.Proofs.Walk
import ComponentIdentity.Resolution

/-! # Resolutions as runs

A resolution takes one visit after the other from the walk. It ends when the
walk has nothing left, when the walk fails or when a visit is refused. What
every visit keeps holds of each run that a resolution goes through.
-/

namespace ComponentIdentity

namespace Resolution

variable {report : Report} {index : IdentityIndex} {branch : Option String}
  {cache : RefCache} {s s' : State} {v : Visit} {m m' : Minter} {e : Error}

theorem keyFor_eq_ok_iff {key : String} {scopes : List Scope} :
    keyFor branch s v = .ok (key, scopes) ↔
      (v.depth = 0 → v.component.kind = .project) ∧
        Scope.keyOf branch s.scopes v = .ok (key, scopes) ∧ s.cache.getByKey? key = none := by
  unfold keyFor checkRoot checkKey
  split
  next h =>
    simp only [bind, Except.bind, reduceCtorEq, false_iff, not_and]
    exact fun hp => absurd (hp h.1) h.2
  next h =>
    have hr : v.depth = 0 → v.component.kind = .project := by simpa using h
    rw [and_iff_right hr]
    simp only [bind, Except.bind]
    rcases Scope.keyOf branch s.scopes v with fault | ⟨k, around⟩
    · simp
    · simp only [Except.ok.injEq, Prod.mk.injEq]
      rcases hk : s.cache.getByKey? k with _ | owner
      · simp only [pure, Except.pure, Except.ok.injEq, Prod.mk.injEq]
        constructor
        · rintro ⟨rfl, rfl⟩; exact ⟨⟨rfl, rfl⟩, hk⟩
        · exact fun h => h.1
      · simp only [reduceCtorEq, false_iff, not_and]
        rintro ⟨rfl, rfl⟩ hn
        simp [hk] at hn

theorem keyFor_eq_error {fault : ReportFault} (h : keyFor branch s v = .error fault) :
    (v.depth = 0 ∧ v.component.kind ≠ .project ∧
      fault = .rootKind v.component.ref v.component.kind) ∨
    (v.depth = 0 → v.component.kind = .project) ∧ (Scope.keyOf branch s.scopes v = .error fault ∨
      ∃ key scopes owner, Scope.keyOf branch s.scopes v = .ok (key, scopes) ∧
        s.cache.getByKey? key = some owner ∧
        fault = .sameKey owner.ref v.component.ref key) := by
  unfold keyFor checkRoot checkKey at h
  split at h
  next hr =>
    cases h
    exact .inl ⟨hr.1, hr.2, rfl⟩
  next hr =>
    refine .inr ⟨by simpa using hr, ?_⟩
    simp only [bind, Except.bind] at h
    rcases hk : Scope.keyOf branch s.scopes v with fault' | ⟨key, scopes⟩
    · rw [hk] at h
      cases h
      exact .inl rfl
    · simp only [hk] at h
      rcases ho : s.cache.getByKey? key with _ | owner
      · simp only [ho] at h
        cases h
      · simp only [ho] at h
        cases h
        exact .inr ⟨key, scopes, owner, rfl, ho, rfl⟩

/-- Every way that a visit can go. -/
theorem visit_run :
    (visit index branch s v).run m =
      match keyFor branch s v with
      | .error fault => (.error (.malformedReport fault), m)
      | .ok (key, scopes) =>
        match (identify index s.cache key).run m with
        | (.error e, m) => (.error e, m)
        | (.ok (uuid, origin), m) =>
          match s.cache.put v.component.ref ⟨v.component.ref, key, uuid⟩ with
          | .error e => (.error e, m)
          | .ok cache => (.ok ⟨scopes, cache, s.stats.count origin⟩, m) := by
  unfold visit
  rw [Stateful.run_bind, Stateful.run_lift]
  rcases keyFor branch s v with fault | ⟨key, scopes⟩
  · rfl
  simp only [Except.mapError, Stateful.run_bind]
  rcases (identify index s.cache key).run m with ⟨e | ⟨uuid, origin⟩, m⟩
  · rfl
  simp only [Stateful.run_lift]
  rcases s.cache.put v.component.ref ⟨v.component.ref, key, uuid⟩ with e | cache <;> rfl

theorem visit_eq_ok (h : (visit index branch s v).run m = (.ok s', m')) :
    ∃ key scopes uuid origin cache,
      keyFor branch s v = .ok (key, scopes) ∧
      (identify index s.cache key).run m = (.ok (uuid, origin), m') ∧
      s.cache.put v.component.ref ⟨v.component.ref, key, uuid⟩ = .ok cache ∧
      s' = ⟨scopes, cache, s.stats.count origin⟩ := by
  rw [visit_run] at h
  split at h
  · cases h
  next key scopes hk =>
    split at h
    · cases h
    next uuid origin m₁ hi =>
      split at h
      · cases h
      next cache hp =>
        cases h
        exact ⟨key, scopes, uuid, origin, cache, hk, hi, hp, rfl⟩

theorem visit_of_ok {key uuid : String} {scopes : List Scope} {origin : Origin} {cache : RefCache}
    (hk : keyFor branch s v = .ok (key, scopes))
    (hi : (identify index s.cache key).run m = (.ok (uuid, origin), m'))
    (hp : s.cache.put v.component.ref ⟨v.component.ref, key, uuid⟩ = .ok cache) :
    (visit index branch s v).run m = (.ok ⟨scopes, cache, s.stats.count origin⟩, m') := by
  rw [visit_run, hk]
  simp only [hi, hp]

theorem visit_eq_error (h : (visit index branch s v).run m = (.error e, m')) :
    (∃ fault, keyFor branch s v = .error fault ∧ e = .malformedReport fault ∧ m' = m) ∨
    (∃ key scopes, keyFor branch s v = .ok (key, scopes) ∧
      (identify index s.cache key).run m = (.error e, m')) ∨
    ∃ key scopes uuid origin, keyFor branch s v = .ok (key, scopes) ∧
      (identify index s.cache key).run m = (.ok (uuid, origin), m') ∧
      s.cache.put v.component.ref ⟨v.component.ref, key, uuid⟩ = .error e := by
  rw [visit_run] at h
  split at h
  next fault hk => cases h; exact .inl ⟨fault, hk, rfl, rfl⟩
  next key scopes hk =>
    split at h
    next hi => cases h; exact .inr (.inl ⟨key, scopes, hk, hi⟩)
    next uuid origin m₁ hi =>
      split at h
      next hp => cases h; exact .inr (.inr ⟨key, scopes, uuid, origin, hk, hi, hp⟩)
      · cases h

/-- A resolution between two visits. -/
structure Run where
  walk : Walk
  state : State
  minter : Minter

namespace Run

def start (report : Report) (m : Minter) : Run := ⟨.start report, {}, m⟩

def resolution (report : Report) (r : Run) : Resolution :=
  ⟨r.state.cache, { r.state.stats with unreachable := report.size - r.state.stats.resolved }⟩

/-- The walk gives a component and the state takes it. -/
inductive Step (report : Report) (index : IdentityIndex) : Run → Run → Prop where
  | visit {r : Run} {v : Visit} {w : Walk} {s : State} {m : Minter} :
      r.walk.next report = (some (.ok v), w) →
      (Resolution.visit index report.branch r.state v).run r.minter = (.ok s, m) →
      Step report index r ⟨w, s, m⟩

def Reaches (report : Report) (index : IdentityIndex) : Run → Run → Prop :=
  Relation.ReflTransGen (Step report index)

inductive Ends (report : Report) (index : IdentityIndex) (r : Run) :
    Except Error Resolution × Minter → Prop where
  | done : r.walk.stack = [] → Ends report index r (.ok (r.resolution report), r.minter)
  | failed {fault : ReportFault} {w : Walk} :
      r.walk.next report = (some (.error fault), w) →
      Ends report index r (.error (.malformedReport fault), r.minter)
  | refused {v : Visit} {w : Walk} {e : Error} {m : Minter} :
      r.walk.next report = (some (.ok v), w) →
      (Resolution.visit index report.branch r.state v).run r.minter = (.error e, m) →
      Ends report index r (.error e, m)

/-- What is still to be done of a run. -/
def rest (report : Report) (index : IdentityIndex) (r : Run) :
    Except Error Resolution × Minter :=
  match ((r.walk.items report).foldlM (step index report.branch) r.state).run r.minter with
  | (.error e, m) => (.error e, m)
  | (.ok s, m) => (.ok ((Run.mk r.walk s m).resolution report), m)

theorem resolve_run (report : Report) (index : IdentityIndex) (m : Minter) :
    (report.resolve index).run m = (start report m).rest report index := by
  simp only [Report.resolve, Stateful.run_bind, rest, Report.walk, start]
  split
  next h => simp only [h]
  next h =>
    simp only [h]
    rfl

theorem rest_of_step {r r' : Run} (h : Step report index r r') :
    r.rest report index = r'.rest report index := by
  obtain ⟨hw, hv⟩ := h
  simp only [rest, Walk.items_eq report r.walk, hw, List.foldlM_cons, Stateful.run_bind, step, hv]
  rfl

theorem rest_of_reaches {r r' : Run} (h : Reaches report index r r') :
    r.rest report index = r'.rest report index := by
  induction h with
  | refl => rfl
  | tail _ hs ih => exact ih.trans (rest_of_step hs)

theorem rest_of_stack_eq_nil {r : Run} (h : r.walk.stack = []) :
    r.rest report index = (.ok (r.resolution report), r.minter) := by
  simp only [rest, Walk.items_eq_nil h, List.foldlM_nil, Stateful.run_pure]

theorem rest_of_ends {r : Run} {out : Except Error Resolution × Minter}
    (h : Ends report index r out) : r.rest report index = out := by
  cases h with
  | done hs => exact rest_of_stack_eq_nil hs
  | failed hw =>
    simp only [rest, Walk.items_eq report r.walk, hw, List.foldlM_cons, step, Stateful.run_bind,
      Stateful.run_throw]
  | refused hw hv =>
    simp only [rest, Walk.items_eq report r.walk, hw, List.foldlM_cons, step, Stateful.run_bind, hv]

theorem ends_or_step (report : Report) (index : IdentityIndex) (r : Run) :
    (∃ out, Ends report index r out) ∨ ∃ r', Step report index r r' := by
  rcases hw : r.walk.next report with ⟨_ | fault | v, w⟩
  · exact .inl ⟨_, .done (Walk.next_fst_eq_none_iff.mp (congrArg Prod.fst hw))⟩
  · exact .inl ⟨_, .failed hw⟩
  · rcases hv : (Resolution.visit index report.branch r.state v).run r.minter with ⟨e | s, m⟩
    · exact .inl ⟨_, .refused hw hv⟩
    · exact .inr ⟨_, .visit hw hv⟩

theorem exists_ends (report : Report) (index : IdentityIndex) (r : Run) :
    ∃ r', Reaches report index r r' ∧ Ends report index r' (r.rest report index) := by
  obtain ⟨w, s, m⟩ := r
  induction w using Walk.induction_next report generalizing s m with
  | h w ih =>
    rcases ends_or_step report index ⟨w, s, m⟩ with ⟨out, he⟩ | ⟨r', hs⟩
    · exact ⟨_, .refl, (rest_of_ends he).symm ▸ he⟩
    · have hrest := rest_of_step hs
      cases hs with
      | visit hw hv =>
        obtain ⟨r', hr, he⟩ := ih _ _ hw _ _
        exact ⟨r', .head (.visit hw hv) hr, hrest ▸ he⟩

/-- Every resolution is a run that comes to an end. -/
theorem exists_run (report : Report) (index : IdentityIndex) (m : Minter) :
    ∃ r, Reaches report index (start report m) r ∧
      Ends report index r ((report.resolve index).run m) :=
  resolve_run report index m ▸ exists_ends report index _

end Run

end Resolution

end ComponentIdentity
