import Mathlib.Logic.Equiv.Fintype
import ComponentIdentity.Proofs.Declared
import ComponentIdentity.Proofs.Identifiers
import ComponentIdentity.Proofs.Keys

/-! # Renamed refs

A ref means something in its report only. A report whose refs are renamed one to
one resolves as before: the keys and identifiers stand under the new refs, or the
resolution fails alike after as many calls of the minter. Reports, walks and
caches store refs in their order, so two runs are compared by what they look up.
-/

namespace ComponentIdentity

def Component.rename (f : Ref → Ref) (c : Component) : Component :=
  { c with ref := f c.ref, children := c.children.map f }

def Metadata.rename (f : Ref → Ref) (m : Metadata) : Metadata := { m with root := f m.root }

def ResolvedComponent.rename (f : Ref → Ref) (c : ResolvedComponent) : ResolvedComponent :=
  { c with ref := f c.ref }

def Pending.rename (f : Ref → Ref) (p : Pending) : Pending :=
  { p with ref := f p.ref, parent := p.parent.map f }

def Visit.rename (f : Ref → Ref) (v : Visit) : Visit := { v with component := v.component.rename f }

theorem Visit.pending_rename (f : Ref → Ref) (v : Visit) :
    (v.rename f).pending = v.pending.map (Pending.rename f) := by
  simp [pending, rename, Component.rename, Pending.rename, Function.comp_def]

/-- Two failures of one kind, with the same key and identifier if they tell any. -/
inductive Error.Alike : Error → Error → Prop where
  | refl (e : Error) : Alike e e
  | malformedReport (fault fault' : ReportFault) :
      Alike (.malformedReport fault) (.malformedReport fault')
  | duplicateRef (r r' : Ref) : Alike (.duplicateRef r) (.duplicateRef r')

/-- Two computations give related values or fail alike, and take the same from the minter. -/
inductive Minting.Agree {α β : Type} (R : α → β → Prop) :
    Except Error α × Minter → Except Error β × Minter → Prop where
  | ok {a : α} {b : β} {m : Minter} : R a b → Agree R (.ok a, m) (.ok b, m)
  | error {e e' : Error} {m : Minter} : e.Alike e' → Agree R (.error e, m) (.error e', m)

namespace Minting.Agree

variable {α β : Type} {R : α → β → Prop} {y : Except Error β × Minter} {a : α} {e : Error}
  {m : Minter}

theorem exists_ok (h : Agree R (.ok a, m) y) : ∃ b, y = (.ok b, m) ∧ R a b := by
  cases h with
  | ok hr => exact ⟨_, rfl, hr⟩

theorem exists_error (h : Agree R (.error e, m) y) : ∃ e', y = (.error e', m) ∧ e.Alike e' := by
  cases h with
  | error he => exact ⟨_, rfl, he⟩

end Minting.Agree

namespace Report

variable {report report' : Report} {f : Ref → Ref} {σ : Equiv.Perm Ref} {r : Ref}

/-- The report with all its refs renamed, if these components make a report. -/
def rename (f : Ref → Ref) (report : Report) : Except ReportFault Report :=
  ofComponents (report.metadata.rename f) (report.toList.map (Component.rename f))

inductive Mentions (report : Report) : Ref → Prop where
  | root : Mentions report report.root
  | declared {r : Ref} : r ∈ report.components → Mentions report r
  | child {p r : Ref} : report.IsChild p r → Mentions report r

/-- A renaming is one to one on the refs of the report, and sends no declared one to zero. -/
structure Renames (report : Report) (f : Ref → Ref) : Prop where
  injOn : Set.InjOn f {r | report.Mentions r}
  ne_zero : ∀ r ∈ report.components, f r ≠ 0

theorem Reachable.mentions (h : report.Reachable r) : report.Mentions r := by
  cases h with
  | refl => exact .root
  | tail _ hs => exact .child hs

theorem mentions_of_mem_toList {c : Component} (h : c ∈ report.toList) :
    report.Mentions c.ref ∧ ∀ child ∈ c.children, report.Mentions child := by
  have hc := mem_toList_iff.mp h
  exact ⟨.declared (mem_components_iff.mpr ⟨c, hc⟩), fun child hm => .child ⟨c, hc, hm⟩⟩

theorem rename_congr {g : Ref → Ref} (h : ∀ r, report.Mentions r → f r = g r) :
    report.rename f = report.rename g := by
  have hm : report.metadata.rename f = report.metadata.rename g := by
    rw [Metadata.rename, Metadata.rename, show f report.metadata.root = _ from h _ .root]
  have hc : report.toList.map (Component.rename f) = report.toList.map (Component.rename g) := by
    refine List.map_congr_left fun c hc => ?_
    obtain ⟨hr, hchildren⟩ := mentions_of_mem_toList hc
    rw [Component.rename, Component.rename, h _ hr,
      List.map_congr_left fun child hm => h child (hchildren child hm)]
  rw [rename, rename, hm, hc]

/-- A renaming of the refs of the report extends to all refs. -/
theorem Renames.exists_perm (h : report.Renames f) :
    ∃ σ : Equiv.Perm Ref, ∀ r, report.Mentions r → σ r = f r := by
  classical
  -- There are finitely many refs, so those outside the report match those that are not taken.
  have : Finite Ref := .of_injective UInt32.toFin fun _ _ => UInt32.toFin_inj.mp
  exact ⟨(Equiv.Set.imageOfInjOn f _ h.injOn).extendSubtype,
    fun r hr => Equiv.extendSubtype_apply_of_mem _ r hr⟩

/-- The second report answers under the renamed refs as the first under its own. -/
structure Mirrors (σ : Equiv.Perm Ref) (report report' : Report) : Prop where
  root_eq : report'.root = σ report.root
  branch_eq : report'.branch = report.branch
  component?_eq : ∀ r, report'.component? (σ r) = (report.component? r).map (Component.rename σ)
  size_eq : report'.size = report.size

theorem Declares.mirrors
    (h : report'.Declares (report.metadata.rename σ) (report.toList.map (Component.rename σ)))
    (hn : ((report.toList.map (Component.rename σ)).map (·.ref)).Nodup) :
    report.Mirrors σ report' where
  root_eq := congrArg Metadata.root h.metadata_eq
  branch_eq := by rw [branch, h.metadata_eq]; rfl
  component?_eq r := by
    ext c'
    simp only [h.component?_eq_some_iff, List.mem_map, mem_toList_iff, Option.map_eq_some_iff]
    constructor
    · rintro ⟨⟨c, hc, rfl⟩, hr⟩
      cases σ.injective hr
      exact ⟨c, hc, rfl⟩
    · rintro ⟨c, hc, rfl⟩
      cases ref_of_component? hc
      exact ⟨⟨c, hc, rfl⟩, rfl⟩
  size_eq := by rw [h.size_eq hn, List.length_map, length_toList]

theorem exists_rename (h : ∀ r ∈ report.components, σ r ≠ 0) :
    ∃ report', report.rename σ = .ok report' ∧ report.Mirrors σ report' := by
  have hrefs : (report.toList.map (Component.rename σ)).map (·.ref) =
      (report.toList.map (·.ref)).map σ := by simp [Component.rename, Function.comp_def]
  have hd : Declarable (report.toList.map (Component.rename σ)) := by
    refine ⟨?_, hrefs ▸ nodup_map_ref_toList.map σ.injective, ?_⟩
    · intro c' hc'
      obtain ⟨c, hc, rfl⟩ := List.mem_map.mp hc'
      exact h c.ref (mem_components_iff.mpr ⟨c, mem_toList_iff.mp hc⟩)
    · rw [List.length_map]
      exact declarable_toList.length_le
  obtain ⟨report', hr⟩ := exists_ofComponents (m := report.metadata.rename σ) hd
  exact ⟨report', hr, (declares_of_ofComponents hr).2.mirrors hd.nodup⟩

end Report

namespace Walk

variable {report report' : Report} {σ : Equiv.Perm Ref} {w w₂ u : Walk} {v : Visit}
  {fault : ReportFault}

/-- The second walk has the renamed refs before it and behind it. -/
structure Mirrors (σ : Equiv.Perm Ref) (w w₂ : Walk) : Prop where
  stack_eq : w₂.stack = w.stack.map (Pending.rename σ)
  mem_visited_iff : ∀ r, σ r ∈ w₂.visited ↔ r ∈ w.visited

theorem mirrors_start (hr : report.Mirrors σ report') :
    (start report).Mirrors σ (start report') where
  stack_eq := by simp [start, hr.root_eq, Pending.rename]
  mem_visited_iff := by simp [start]

namespace Mirrors

theorem stack_eq_cons {p : Pending} {rest : List Pending} (h : w.Mirrors σ w₂)
    (hs : w.stack = p :: rest) : w₂.stack = p.rename σ :: rest.map (Pending.rename σ) := by
  rw [h.stack_eq, hs, List.map_cons]

theorem next_visit (h : w.Mirrors σ w₂) (hr : report.Mirrors σ report')
    (hw : w.next report = (some (.ok v), u)) :
    ∃ u₂, w₂.next report' = (some (.ok (v.rename σ)), u₂) ∧ u.Mirrors σ u₂ := by
  obtain ⟨p, rest, hs, hc, hp, hd, rfl⟩ := next_eq_visit hw
  have hc₂ : report'.component? (p.rename σ).ref = some (v.component.rename σ) := by
    rw [Pending.rename, hr.component?_eq, hc, Option.map_some]
  have hp₂ : (p.rename σ).ref ∉ w₂.visited := fun hm => hp ((h.mem_visited_iff p.ref).mp hm)
  have hv : (⟨v.component.rename σ, (p.rename σ).depth⟩ : Visit) = v.rename σ := by
    rw [Visit.rename, hd, Pending.rename]
  have hnext := next_of_fresh (h.stack_eq_cons hs) hc₂ hp₂
  rw [hv] at hnext
  refine ⟨_, hnext, ?_, fun x => ?_⟩
  · rw [Visit.pending_rename, List.map_append]
  · rw [Std.ExtTreeSet.mem_insert, Std.ExtTreeSet.mem_insert, h.mem_visited_iff,
      Std.LawfulEqCmp.compare_eq_iff_eq, Std.LawfulEqCmp.compare_eq_iff_eq, Pending.rename,
      σ.injective.eq_iff]

theorem next_fault (h : w.Mirrors σ w₂) (hr : report.Mirrors σ report')
    (hw : w.next report = (some (.error fault), u)) :
    ∃ fault₂, w₂.next report' = (some (.error fault₂), w₂.failed) := by
  obtain ⟨p, rest, hs, hp⟩ := next_eq_error hw
  refine exists_next_fault (h.stack_eq_cons hs) (hp.imp (fun hc => ?_) (h.mem_visited_iff _).mpr)
  rw [Pending.rename, hr.component?_eq, hc, Option.map_none]

end Mirrors

end Walk

namespace RefCache

variable {σ : Equiv.Perm Ref} {cache cache' cache₂ : RefCache} {r : Ref} {c : ResolvedComponent}
  {e : Error}

structure Mirrors (σ : Equiv.Perm Ref) (cache cache₂ : RefCache) : Prop where
  get?_eq : ∀ r, cache₂.get? (σ r) = (cache.get? r).map (ResolvedComponent.rename σ)
  byKey_eq : ∀ key : String, cache₂.byKey[key]? = cache.byKey[key]?.map σ
  containsUuid_eq : ∀ uuid, cache₂.containsUuid uuid = cache.containsUuid uuid

theorem mirrors_empty : empty.Mirrors σ empty where
  get?_eq := by simp
  byKey_eq := by simp [empty]
  containsUuid_eq _ := rfl

namespace Mirrors

theorem insertFresh (h : cache.Mirrors σ cache₂) :
    (cache.insertFresh r c).Mirrors σ (cache₂.insertFresh (σ r) (c.rename σ)) where
  get?_eq x := by
    simp only [get?_insertFresh, h.get?_eq, σ.injective.eq_iff]
    split <;> rfl
  byKey_eq key := by
    rw [byKey_insertFresh, byKey_insertFresh, h.byKey_eq, ResolvedComponent.rename]
    split <;> rfl
  containsUuid_eq uuid := by
    rw [Bool.eq_iff_iff, containsUuid_insertFresh, containsUuid_insertFresh, h.containsUuid_eq,
      ResolvedComponent.rename]

theorem getByKey?_eq (h : cache.Mirrors σ cache₂) (key : String) :
    cache₂.getByKey? key = (cache.getByKey? key).map (ResolvedComponent.rename σ) := by
  rw [getByKey?, getByKey?, h.byKey_eq]
  cases cache.byKey[key]? with
  | none => rfl
  | some r => exact h.get?_eq r

theorem put_eq_ok (h : cache.Mirrors σ cache₂) (hp : cache.put r c = .ok cache') :
    ∃ cache₂', cache₂.put (σ r) (c.rename σ) = .ok cache₂' ∧ cache'.Mirrors σ cache₂' := by
  obtain ⟨hr, hk, hu, rfl⟩ := put_eq_ok_iff.mp hp
  refine ⟨_, put_eq_ok_iff.mpr ⟨?_, ?_, ?_, rfl⟩, h.insertFresh⟩
  · rw [h.get?_eq, hr, Option.map_none]
  · rw [h.byKey_eq, ResolvedComponent.rename, hk, Option.map_none]
  · rw [h.containsUuid_eq, ResolvedComponent.rename, hu]

theorem put_eq_error (h : cache.Mirrors σ cache₂) (hp : cache.put r c = .error e) :
    ∃ e', cache₂.put (σ r) (c.rename σ) = .error e' ∧ e.Alike e' := by
  have hr : σ r ∈ cache₂.byRef ↔ r ∈ cache.byRef := by
    have hget := congrArg Option.isSome (h.get?_eq r)
    rw [Option.isSome_map] at hget
    rw [Std.ExtTreeMap.mem_iff_isSome_getElem?, Std.ExtTreeMap.mem_iff_isSome_getElem?]
    exact Bool.eq_iff_iff.mp hget
  have hk : cache₂.byKey[(c.rename σ).key]? = cache.byKey[c.key]?.map σ := h.byKey_eq c.key
  have hu : cache₂.containsUuid (c.rename σ).uuid = cache.containsUuid c.uuid :=
    h.containsUuid_eq c.uuid
  unfold put at hp ⊢
  simp only [hr, hk, hu]
  split at hp
  next hm =>
    cases hp
    rw [if_pos hm]
    exact ⟨_, rfl, .duplicateRef _ _⟩
  next hm =>
    rw [if_neg hm]
    split at hp
    next owner hk =>
      cases hp
      rw [hk]
      exact ⟨_, rfl, .malformedReport _ _⟩
    next hk =>
      rw [hk]
      split at hp
      next hu =>
        cases hp
        rw [Option.map_none]
        simp only [hu, if_true]
        exact ⟨_, rfl, .refl _⟩
      · cases hp

end Mirrors

end RefCache

namespace Resolution

variable {report report' : Report} {index : IdentityIndex} {branch : Option String}
  {σ : Equiv.Perm Ref} {f : Ref → Ref} {cache cache₂ : RefCache} {s s₂ : State} {v : Visit}
  {m : Minter} {key : String}

theorem keyOf_rename {scopes : List Scope} {x : String × List Scope} :
    Scope.keyOf branch scopes (v.rename f) = .ok x ↔ Scope.keyOf branch scopes v = .ok x := by
  have hm : ∀ key, Key.ofModule branch (v.component.rename f) = .ok key ↔
      Key.ofModule branch v.component = .ok key := fun key => by
    rw [Key.ofModule_eq_ok_iff, Key.ofModule_eq_ok_iff]; rfl
  have hp : ∀ around key, Key.ofPath around (v.component.rename f) = .ok key ↔
      Key.ofPath around v.component = .ok key := fun around key => by
    rw [Key.ofPath_eq_ok_iff, Key.ofPath_eq_ok_iff]; rfl
  have hk : (v.rename f).component.kind = v.component.kind := rfl
  have hd : (v.rename f).depth = v.depth := rfl
  unfold Scope.keyOf
  simp only [hk, hd]
  split
  · simp only [Except.bind_eq_ok_iff]
    exact exists_congr fun key => and_congr_left' (hm key)
  · cases Scope.enclosing v.depth scopes with
    | nil => simp
    | cons scope around =>
      simp only [Except.bind_eq_ok_iff]
      exact exists_congr fun key => and_congr_left' (hp scope.key key)

theorem identify_congr (h : ∀ uuid, cache₂.containsUuid uuid = cache.containsUuid uuid) :
    identify index cache₂ key = identify index cache key := by
  have hu : ∀ uuid, inUse index cache₂ uuid = inUse index cache uuid := fun uuid => by
    rw [inUse, inUse, h]
  have hm : ∀ attempts, mintUnused index cache₂ key attempts =
      mintUnused index cache key attempts := by
    intro attempts
    induction attempts with
    | zero => rfl
    | succ attempts ih => simp only [mintUnused, hu, ih]
  simp only [identify, h, hm]

namespace State

/-- The second state differs in the refs of its cache only. -/
structure Mirrors (σ : Equiv.Perm Ref) (s s₂ : State) : Prop where
  scopes_eq : s₂.scopes = s.scopes
  cache : s.cache.Mirrors σ s₂.cache
  stats_eq : s₂.stats = s.stats

theorem Mirrors.keyFor_iff (h : s.Mirrors σ s₂) {x : String × List Scope} :
    keyFor branch s₂ (v.rename σ) = .ok x ↔ keyFor branch s v = .ok x := by
  rw [keyFor_eq_ok_iff, keyFor_eq_ok_iff, h.scopes_eq, keyOf_rename, h.cache.getByKey?_eq,
    Option.map_eq_none_iff]
  rfl

/-- A visit goes the same way in both states. -/
theorem Mirrors.visit (h : s.Mirrors σ s₂) :
    Minting.Agree (Mirrors σ) ((visit index branch s v).run m)
      ((visit index branch s₂ (v.rename σ)).run m) := by
  rw [visit_run, visit_run]
  -- Key, identifier and cache in turn: each succeeds on both sides or on none.
  rcases hk : keyFor branch s v with fault | ⟨key, scopes⟩
  · rcases hk₂ : keyFor branch s₂ (v.rename σ) with fault₂ | x
    · exact .error (.malformedReport _ _)
    · cases hk.symm.trans (h.keyFor_iff.mp hk₂)
  rw [h.keyFor_iff.mpr hk]
  dsimp only
  rw [identify_congr h.cache.containsUuid_eq]
  rcases (identify index s.cache key).run m with ⟨e | ⟨uuid, origin⟩, m₁⟩
  · exact .error (.refl e)
  dsimp only
  rcases hp : s.cache.put v.component.ref ⟨v.component.ref, key, uuid⟩ with e | cache
  · obtain ⟨e', hp₂, he⟩ := h.cache.put_eq_error hp
    dsimp only [Visit.rename, Component.rename, ResolvedComponent.rename] at hp₂ ⊢
    rw [hp₂]
    exact .error he
  · obtain ⟨cache₂, hp₂, hc⟩ := h.cache.put_eq_ok hp
    dsimp only [Visit.rename, Component.rename, ResolvedComponent.rename] at hp₂ ⊢
    rw [hp₂, h.stats_eq]
    exact .ok ⟨rfl, hc, rfl⟩

end State

structure Mirrors (σ : Equiv.Perm Ref) (res res₂ : Resolution) : Prop where
  cache : res.cache.Mirrors σ res₂.cache
  stats_eq : res₂.stats = res.stats

namespace Run

variable {r r' r₂ : Run} {out : Except Error Resolution × Minter}

/-- The second run is at the same place of its report. -/
structure Mirrors (σ : Equiv.Perm Ref) (r r₂ : Run) : Prop where
  walk : r.walk.Mirrors σ r₂.walk
  state : r.state.Mirrors σ r₂.state
  minter_eq : r₂.minter = r.minter

theorem mirrors_start (hr : report.Mirrors σ report') :
    (start report m).Mirrors σ (start report' m) :=
  ⟨Walk.mirrors_start hr, ⟨rfl, RefCache.mirrors_empty, rfl⟩, rfl⟩

namespace Mirrors

theorem visit (h : r.Mirrors σ r₂) (hr : report.Mirrors σ report') (index : IdentityIndex)
    (v : Visit) :
    Minting.Agree (State.Mirrors σ)
      ((Resolution.visit index report.branch r.state v).run r.minter)
      ((Resolution.visit index report'.branch r₂.state (v.rename σ)).run r₂.minter) := by
  rw [hr.branch_eq, h.minter_eq]
  exact h.state.visit

theorem step (h : r.Mirrors σ r₂) (hr : report.Mirrors σ report') (hs : Step report index r r') :
    ∃ r₂', Step report' index r₂ r₂' ∧ r'.Mirrors σ r₂' := by
  cases hs with
  | @visit v w s m hw hv =>
    obtain ⟨w₂, hw₂, hwalk⟩ := h.walk.next_visit hr hw
    have hvisit := h.visit hr index v
    rw [hv] at hvisit
    obtain ⟨s₂, hv₂, hstate⟩ := hvisit.exists_ok
    exact ⟨_, .visit hw₂ hv₂, hwalk, hstate, rfl⟩

theorem reaches (hr : report.Mirrors σ report') (h : Reaches report index (start report m) r) :
    ∃ r₂, Reaches report' index (start report' m) r₂ ∧ r.Mirrors σ r₂ := by
  induction h with
  | refl => exact ⟨_, .refl, mirrors_start hr⟩
  | tail _ hs ih =>
    obtain ⟨r₂, hr₂, h⟩ := ih
    obtain ⟨r₂', hs₂, h⟩ := h.step hr hs
    exact ⟨r₂', hr₂.tail hs₂, h⟩

/-- Runs at the same place end alike. -/
theorem ends (h : r.Mirrors σ r₂) (hr : report.Mirrors σ report') (he : Ends report index r out) :
    ∃ out₂, Ends report' index r₂ out₂ ∧ Minting.Agree (Resolution.Mirrors σ) out out₂ := by
  cases he with
  | done hs =>
    have hs₂ : r₂.walk.stack = [] := by rw [h.walk.stack_eq, hs, List.map_nil]
    refine ⟨_, .done hs₂, ?_⟩
    rw [h.minter_eq]
    refine .ok ⟨h.state.cache, ?_⟩
    rw [resolution, resolution, hr.size_eq, h.state.stats_eq]
  | failed hw =>
    obtain ⟨fault₂, hw₂⟩ := h.walk.next_fault hr hw
    refine ⟨_, .failed hw₂, ?_⟩
    rw [h.minter_eq]
    exact .error (.malformedReport _ _)
  | @refused v w e m hw hv =>
    obtain ⟨w₂, hw₂, -⟩ := h.walk.next_visit hr hw
    have hvisit := h.visit hr index v
    rw [hv] at hvisit
    obtain ⟨e₂, hv₂, he⟩ := hvisit.exists_error
    exact ⟨_, .refused hw₂ hv₂, .error he⟩

end Mirrors

end Run

/-- The same resolution under renamed refs: each component keeps its key and identifier, and the
counts are the same. -/
structure Renamed (f : Ref → Ref) (res res₂ : Resolution) : Prop where
  get?_eq_some_iff : ∀ x c₂, res₂.cache.get? x = some c₂ ↔
    ∃ r c, res.cache.get? r = some c ∧ f r = x ∧ c.rename f = c₂
  stats_eq : res₂.stats = res.stats

theorem Mirrors.renamed {res res₂ : Resolution} (h : res.Mirrors σ res₂)
    (hf : ∀ r, report.Mentions r → σ r = f r) (hc : res.IsComplete report) :
    res.Renamed f res₂ := by
  have hrename : ∀ r c, res.cache.get? r = some c → σ r = f r ∧ c.rename σ = c.rename f := by
    intro r c hr
    have hσ := hf r ((hc.stored_iff r).mp ⟨c, hr⟩).mentions
    rw [ResolvedComponent.rename, ResolvedComponent.rename, hc.ref_eq r c hr, hσ]
    exact ⟨rfl, rfl⟩
  refine ⟨fun x c₂ => ?_, h.stats_eq⟩
  obtain ⟨r, rfl⟩ := σ.surjective x
  rw [h.cache.get?_eq, Option.map_eq_some_iff]
  constructor
  · rintro ⟨c, hr, rfl⟩
    obtain ⟨hσ, hc⟩ := hrename r c hr
    exact ⟨r, c, hr, hσ.symm, hc.symm⟩
  · rintro ⟨r', c, hr, hx, rfl⟩
    obtain ⟨hσ, hc⟩ := hrename r' c hr
    cases σ.injective (hσ.trans hx)
    exact ⟨c, hr, hc⟩

/-- A report with renamed refs is one, and it resolves as before: to the same keys and identifiers
under the new refs, or to a failure of the same kind, after as many calls of the minter. -/
theorem exists_rename_agree (h : report.Renames f) :
    ∃ report', report.rename f = .ok report' ∧ ∀ index m,
      Minting.Agree (Renamed f) ((report.resolve index).run m) ((report'.resolve index).run m) := by
  obtain ⟨σ, hσ⟩ := h.exists_perm
  have hzero : ∀ r ∈ report.components, σ r ≠ 0 := fun r hr =>
    hσ r (.declared hr) ▸ h.ne_zero r hr
  obtain ⟨report', hreport', hr⟩ := Report.exists_rename hzero
  refine ⟨report', Report.rename_congr hσ ▸ hreport', fun index m => ?_⟩
  obtain ⟨r, hreach, hends⟩ := Run.exists_run report index m
  obtain ⟨r₂, hreach₂, hm⟩ := Run.Mirrors.reaches hr hreach
  obtain ⟨out₂, hends₂, hagree⟩ := hm.ends hr hends
  rw [Run.resolve_run report', Run.rest_of_reaches hreach₂, Run.rest_of_ends hends₂]
  generalize hout : (report.resolve index).run m = out at hagree ⊢
  cases hagree with
  | ok hres =>
    obtain ⟨r', done, -, ht, rfl, -⟩ := exists_traced_of_resolve hout
    exact .ok (hres.renamed hσ ht.isComplete)
  | error he => exact .error he

theorem exists_rename_agree_mixedReport :
    mixedReport.Renames (100 - ·) ∧ ∃ report' res res₂ m',
      mixedReport.rename (100 - ·) = .ok report' ∧
        (mixedReport.resolve rootIndex.toIndex).run repeating = (.ok res, m') ∧
        (report'.resolve rootIndex.toIndex).run repeating = (.ok res₂, m') ∧
        res.Renamed (100 - ·) res₂ ∧ res₂.cache.get? 97 = some ⟨97, "M:dev", "x"⟩ := by
  have hf : mixedReport.Renames (100 - ·) := by
    have hkeys : mixedReport.components.keys.all (100 - · ≠ 0) = true := by decide +kernel
    refine ⟨fun a _ b _ he => by simpa using he, fun r hr => ?_⟩
    simpa using List.all_eq_true.mp hkeys r (Std.ExtTreeMap.mem_keys.mpr hr)
  have hfirst : ((mixedReport.resolve rootIndex.toIndex).run repeating).1.toOption.map
      (·.cache.get? 3) = some (some ⟨3, "M:dev", "x"⟩) := by decide +kernel
  obtain ⟨report', hreport', hagree⟩ := exists_rename_agree hf
  obtain ⟨res, m', h, hget⟩ := Except.exists_of_toOption_map hfirst
  have hagree := hagree rootIndex.toIndex repeating
  rw [h] at hagree
  obtain ⟨res₂, h₂, hrenamed⟩ := hagree.exists_ok
  exact ⟨hf, report', res, res₂, m', hreport', h, h₂, hrenamed,
    (hrenamed.get?_eq_some_iff _ _).mpr ⟨3, _, hget, rfl, rfl⟩⟩

end Resolution

end ComponentIdentity
