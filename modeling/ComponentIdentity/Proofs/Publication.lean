import ComponentIdentity.CommandLine
import ComponentIdentity.Proofs.Vacancy

/-! # What a pipeline publishes

A run of a pipeline executes its steps up to the first one that fails, each in
the context that the one before it left. Over any runs, a context shows at every
moment what the latest feed step that succeeded has resolved, or nothing at all.
-/

namespace ComponentIdentity

structure Execution (Note : Type) where
  step : Step Note
  context : Context

namespace Execution

variable {Note : Type} {x : Execution Note} {xs ys : List (Execution Note)} {e : Error}
  {context context' context'' : Context} {report : Report} {index : IdentityIndex}

def result (x : Execution Note) : Except Error (List Note) := (x.step.execute x.context).1

def stepAfter (x : Execution Note) : Step Note := (x.step.execute x.context).2.1

def contextAfter (x : Execution Note) : Context := (x.step.execute x.context).2.2

def Succeeds (x : Execution Note) : Prop := ∃ notes, x.result = .ok notes

def notes (x : Execution Note) : List Note := x.result.toOption.getD []

def resolution? (x : Execution Note) : Option Resolution :=
  match x.step with
  | .feed minter => ((x.context.report.resolve x.context.index).run minter).1.toOption
  | .watch _ _ _ => none

/-- What the latest feed step that succeeded has resolved. -/
def latest (xs : List (Execution Note)) : Option Resolution :=
  (xs.filterMap resolution?).getLast?

/-- Each step is executed in the context that the one before it left. -/
inductive Chain : Context → List (Execution Note) → Context → Prop where
  | nil {context : Context} : Chain context [] context
  | cons {x : Execution Note} {xs : List (Execution Note)} {context : Context} :
      Chain x.contextAfter xs context → Chain x.context (x :: xs) context

theorem Chain.append (h : Chain context xs context') (h' : Chain context' ys context'') :
    Chain context (xs ++ ys) context'' := by
  induction h with
  | nil => exact h'
  | cons _ ih => exact .cons (ih h')

theorem contextAfter_eq (x : Execution Note) :
    x.contextAfter = match x.resolution? with
      | some res => x.context.publish res
      | none => x.context := by
  obtain ⟨minter | ⟨name, seen, look⟩, context⟩ := x
  · unfold contextAfter resolution? Step.execute
    simp only
    rcases (context.report.resolve context.index).run minter with ⟨e | res, m⟩ <;> rfl
  · rfl

theorem resolution?_eq_none (h : x.result = .error e) : x.resolution? = none := by
  obtain ⟨minter | ⟨name, seen, look⟩, context⟩ := x
  · unfold result Step.execute at h
    unfold resolution?
    simp only at h ⊢
    rcases hr : (context.report.resolve context.index).run minter with ⟨e | res, m⟩
    · rfl
    · rw [hr] at h
      cases h
  · rfl

theorem exists_resolve_of_resolution? {res : Resolution} (h : x.resolution? = some res) :
    ∃ m m', (x.context.report.resolve x.context.index).run m = (.ok res, m') := by
  obtain ⟨minter | ⟨name, seen, look⟩, context⟩ := x
  · unfold resolution? at h
    simp only at h
    rcases hr : (context.report.resolve context.index).run minter with ⟨e | res, m⟩
    · rw [hr] at h
      cases h
    · rw [hr] at h
      cases h
      exact ⟨minter, m, hr⟩
  · cases h

/-- A feed step resolves with the minter that it has, and has afterwards what is left of it. -/
theorem execute_feed {minter : Minter} (h : x.step = .feed minter) :
    x.result = ((x.context.report.resolve x.context.index).run minter).1.map (fun _ => []) ∧
      x.stepAfter = .feed ((x.context.report.resolve x.context.index).run minter).2 := by
  obtain ⟨_, context⟩ := x
  subst h
  unfold result stepAfter Step.execute
  dsimp only
  rcases (context.report.resolve context.index).run minter with ⟨e | res, m⟩ <;> exact ⟨rfl, rfl⟩

theorem execute_watch {name : String} {seen : List Context}
    {look : List Context → Context → Except Error Note} (h : x.step = .watch name seen look) :
    x.result = (look seen x.context).map (fun note => [note]) ∧
      x.stepAfter = .watch name (x.context :: seen) look := by
  obtain ⟨_, context⟩ := x
  subst h
  exact ⟨rfl, rfl⟩

theorem latest_concat :
    latest (xs ++ [x]) = x.resolution?.or (latest xs) := by
  unfold latest
  rw [List.filterMap_append]
  cases h : x.resolution? with
  | none => simp [h]
  | some res => simp [h]

/-- After the executed steps a context has the cache and the counters of the latest resolution, or
neither if there was none. -/
structure Shows (report : Report) (index : IdentityIndex) (xs : List (Execution Note))
    (context : Context) : Prop where
  report_eq : context.report = report
  index_eq : context.index = index
  components_eq : context.components = (latest xs).map (·.cache)
  stats_eq : context.stats = (latest xs).map (·.stats)
  resolved : ∀ res, latest xs = some res →
    ∃ m m', (report.resolve index).run m = (.ok res, m')

theorem shows_nil : Shows report index ([] : List (Execution Note)) { report, index } :=
  ⟨rfl, rfl, rfl, rfl, fun _ h => by cases h⟩

theorem Shows.step (h : Shows report index xs x.context) :
    Shows report index (xs ++ [x]) x.contextAfter := by
  have hafter := contextAfter_eq x
  have hlatest : latest (xs ++ [x]) = x.resolution?.or (latest xs) := latest_concat
  cases hres : x.resolution? with
  | none =>
    rw [hres] at hafter hlatest
    simp only [Option.none_or] at hafter hlatest
    rw [hafter]
    exact ⟨h.report_eq, h.index_eq, hlatest ▸ h.components_eq, hlatest ▸ h.stats_eq,
      hlatest ▸ h.resolved⟩
  | some res =>
    rw [hres] at hafter hlatest
    simp only [Option.some_or] at hafter hlatest
    rw [hafter]
    refine ⟨h.report_eq, h.index_eq, by rw [hlatest]; rfl, by rw [hlatest]; rfl, fun res' he => ?_⟩
    cases hlatest.symm.trans he
    have hx := exists_resolve_of_resolution? hres
    rwa [h.report_eq, h.index_eq] at hx

/-- Before and after a step is executed its context shows the latest resolution, and a step that
fails leaves the context as it was. The step goes on with what is left of its minter, or with the
context added to those that it has seen. -/
structure Moment (report : Report) (index : IdentityIndex) (before : List (Execution Note))
    (x : Execution Note) : Prop where
  shows_before : Shows report index before x.context
  shows_after : Shows report index (before ++ [x]) x.contextAfter
  unchanged_of_error : ∀ e, x.result = .error e → x.contextAfter = x.context
  feed : ∀ minter, x.step = .feed minter →
    x.result = ((report.resolve index).run minter).1.map (fun _ => []) ∧
      x.stepAfter = .feed ((report.resolve index).run minter).2
  watch : ∀ name seen look, x.step = .watch name seen look →
    x.result = (look seen x.context).map (fun note => [note]) ∧
      x.stepAfter = .watch name (x.context :: seen) look

theorem Shows.moment (h : Shows report index xs x.context) : Moment report index xs x where
  shows_before := h
  shows_after := h.step
  unchanged_of_error e he := by rw [contextAfter_eq, resolution?_eq_none he]
  feed minter hm := by
    rw [← h.report_eq, ← h.index_eq]
    exact execute_feed hm
  watch name seen look hw := execute_watch hw

theorem Chain.shows {seen : List (Execution Note)} (h : Chain context xs context')
    (hs : Shows report index seen context) : Shows report index (seen ++ xs) context' := by
  induction h generalizing seen with
  | nil => rwa [List.append_nil]
  | cons _ ih => exact List.append_cons .. ▸ ih hs.step

theorem Chain.moment {seen : List (Execution Note)} (h : Chain context xs context')
    (hs : Shows report index seen context) :
    ∀ before after, xs = before ++ x :: after → Moment report index (seen ++ before) x := by
  induction h generalizing seen with
  | nil => simp
  | @cons y ys context' hc ih =>
    rintro (_ | ⟨z, before⟩) after he
    · cases he
      rw [List.append_nil]
      exact hs.moment
    · obtain ⟨rfl, hrest⟩ := List.cons.inj he
      have hm := ih hs.step before after hrest
      rwa [List.append_assoc] at hm

end Execution

namespace Pipeline

open Execution (Chain Shows)

variable {Note : Type} {steps : List (Step Note)} {context : Context} {xs : List (Execution Note)}

/-- The executions of a run and its end: all steps succeed, or the first one that fails ends the
run with its failure, and the steps behind it are not executed. -/
inductive Executes (steps : List (Step Note)) (context : Context) :
    List (Execution Note) → Run Note → Prop where
  | finished {xs : List (Execution Note)} {context' : Context} :
      Chain context xs context' → (∀ x ∈ xs, x.Succeeds) → steps = xs.map (·.step) →
      Executes steps context xs
        ⟨xs.map (·.stepAfter), context', xs.flatMap (·.notes), none⟩
  | failed {xs : List (Execution Note)} {x : Execution Note} {rest : List (Step Note)}
      {e : Error} :
      Chain context (xs ++ [x]) x.contextAfter → (∀ y ∈ xs, y.Succeeds) → x.result = .error e →
      steps = xs.map (·.step) ++ x.step :: rest →
      Executes steps context (xs ++ [x])
        ⟨xs.map (·.stepAfter) ++ x.stepAfter :: rest, x.contextAfter, xs.flatMap (·.notes), some e⟩

theorem Executes.chain {r : Run Note} (h : Executes steps context xs r) :
    Chain context xs r.context := by
  cases h with
  | finished hc => exact hc
  | failed hc => exact hc

theorem Executes.cons {x : Execution Note} {r : Run Note} {notes : List Note}
    (h : Executes steps x.contextAfter xs r) (hx : x.result = .ok notes) :
    Executes (x.step :: steps) x.context (x :: xs) (r.after x.stepAfter notes) := by
  have hnotes : x.notes = notes := by
    rw [Execution.notes, hx]
    rfl
  cases h with
  | finished hc hs he =>
    subst hnotes he
    exact .finished (.cons hc) (List.forall_mem_cons.mpr ⟨⟨_, hx⟩, hs⟩) rfl
  | @failed xs y rest e hc hs hy he =>
    subst hnotes he
    have hall : ∀ z ∈ x :: xs, z.Succeeds := List.forall_mem_cons.mpr ⟨⟨_, hx⟩, hs⟩
    have h : Chain x.context (x :: xs ++ [y]) y.contextAfter := .cons hc
    exact .failed h hall hy rfl

theorem exists_executes (steps : List (Step Note)) (context : Context) :
    ∃ xs, Executes steps context xs (run steps context) := by
  induction steps generalizing context with
  | nil => exact ⟨[], .finished .nil (by simp) rfl⟩
  | cons step rest ih =>
    rw [run]
    split
    next e step' context' he =>
      have hx : (Execution.mk step context).result = .error e := congrArg Prod.fst he
      have hs : (Execution.mk step context).stepAfter = step' := congrArg (·.2.1) he
      have hc : (Execution.mk step context).contextAfter = context' := congrArg (·.2.2) he
      subst hs hc
      have hchain : Chain context ([] ++ [⟨step, context⟩])
          (Execution.mk step context).contextAfter := .cons (x := ⟨step, context⟩) .nil
      exact ⟨_, .failed hchain (by simp) hx rfl⟩
    next notes step' context' he =>
      have hx : (Execution.mk step context).result = .ok notes := congrArg Prod.fst he
      have hs : (Execution.mk step context).stepAfter = step' := congrArg (·.2.1) he
      have hc : (Execution.mk step context).contextAfter = context' := congrArg (·.2.2) he
      subst hs hc
      obtain ⟨xs, h⟩ := ih (Execution.mk step context).contextAfter
      exact ⟨_, h.cons hx⟩

inductive ExecutesAll : List (Step Note) → Context → List (Execution Note) → List (Run Note) →
    Prop where
  | nil {steps : List (Step Note)} {context : Context} : ExecutesAll steps context [] []
  | cons {steps : List (Step Note)} {context : Context} {xs ys : List (Execution Note)}
      {r : Run Note} {rs : List (Run Note)} :
      Executes steps context xs r → ExecutesAll r.steps r.context ys rs →
      ExecutesAll steps context (xs ++ ys) (r :: rs)

theorem ExecutesAll.exists_chain {rs : List (Run Note)} (h : ExecutesAll steps context xs rs) :
    ∃ context', Chain context xs context' := by
  induction h with
  | nil => exact ⟨_, .nil⟩
  | cons hx _ ih =>
    obtain ⟨context', hc⟩ := ih
    exact ⟨context', hx.chain.append hc⟩

theorem exists_executesAll (steps : List (Step Note)) (context : Context) (n : Nat) :
    ∃ xs, ExecutesAll steps context xs (runs steps context n) := by
  induction n generalizing steps context with
  | zero => exact ⟨[], .nil⟩
  | succ n ih =>
    obtain ⟨xs, hx⟩ := exists_executes steps context
    obtain ⟨ys, hy⟩ := ih (run steps context).steps (run steps context).context
    exact ⟨xs ++ ys, .cons hx hy⟩

/-- Every run leaves a context that shows the latest of the resolutions up to its end. -/
theorem ExecutesAll.exists_shows {report : Report} {index : IdentityIndex}
    {seen : List (Execution Note)} {rs : List (Run Note)} {r : Run Note}
    (h : ExecutesAll steps context xs rs) (hs : Shows report index seen context) (hr : r ∈ rs) :
    ∃ before after, xs = before ++ after ∧ Shows report index (seen ++ before) r.context := by
  induction h generalizing seen with
  | nil => cases hr
  | @cons steps context xs ys first rs hx _ ih =>
    have hfirst := hx.chain.shows hs
    rcases List.mem_cons.mp hr with rfl | hr
    · exact ⟨xs, ys, rfl, hfirst⟩
    · obtain ⟨before, after, rfl, hb⟩ := ih hfirst hr
      exact ⟨xs ++ before, after, (List.append_assoc ..).symm, List.append_assoc .. ▸ hb⟩

end Pipeline

theorem IdentityTables.avoids_toIndex (tables : IdentityTables) (e : Error) :
    tables.toIndex.Avoids e := ⟨fun _ => nofun, fun _ => nofun⟩

namespace Resolution

variable {report : Report} {index : IdentityIndex} {m m' : Minter} {e : Error}

theorem resolve_ne_nothingPublished (hi : index.Avoids (.malformedReport .nothingPublished))
    (h : (report.resolve index).run m = (.error e, m')) :
    e ≠ .malformedReport .nothingPublished := by
  rintro rfl
  rcases fault_or_exists_keyFault hi h with hw | ⟨_, _, _, -, -, hk⟩
  · nomatch hw
  · nomatch hk

end Resolution

namespace Report

variable {report : Report} {index : IdentityIndex} {m : Minter}

theorem resolveOnce_eq : report.resolveOnce index m = ((report.resolve index).run m).1 := by
  unfold resolveOnce Pipeline.run Step.execute
  rcases hr : (report.resolve index).run m with ⟨e | res, m'⟩
  · simp only [hr]
  · simp only [hr]
    rfl

theorem resolveStored_eq_resolve {deterministic : Bool} {tables : IdentityTables}
    {fresh : Minter} :
    report.resolveStored deterministic tables fresh =
      ((report.resolve tables.toIndex).run (report.minterFor deterministic tables fresh)).1 :=
  resolveOnce_eq

theorem resolveStored_ne_nothingPublished {deterministic : Bool} {tables : IdentityTables}
    {fresh : Minter} :
    report.resolveStored deterministic tables fresh ≠
      .error (.malformedReport .nothingPublished) := by
  rw [resolveStored_eq_resolve]
  rcases hr : (report.resolve tables.toIndex).run (report.minterFor deterministic tables fresh)
    with ⟨e | res, m'⟩
  · intro h
    exact Resolution.resolve_ne_nothingPublished (tables.avoids_toIndex _) hr (Except.error.inj h)
  · exact nofun

end Report

/-- However often a pipeline runs on one context, each run executes its steps up to the first
failure, and at every moment the context shows the latest successful resolution or nothing. A
pipeline of one feed step gives what the resolution itself gives. -/
theorem Pipeline.publishes_latest_resolution {Note : Type} (report : Report)
    (index : IdentityIndex) (steps : List (Step Note)) (n : Nat) :
    (∃ xs, ExecutesAll steps { report, index } xs (runs steps { report, index } n) ∧
      (∀ before x after, xs = before ++ x :: after → Execution.Moment report index before x) ∧
      ∀ r ∈ runs steps { report, index } n, ∃ before after, xs = before ++ after ∧
        Execution.Shows report index before r.context) ∧
    ∀ deterministic tables fresh,
      report.resolveStored deterministic tables fresh =
        ((report.resolve tables.toIndex).run (report.minterFor deterministic tables fresh)).1 ∧
      report.resolveStored deterministic tables fresh ≠
        .error (.malformedReport .nothingPublished) := by
  refine ⟨?_, fun _ _ _ => ⟨Report.resolveStored_eq_resolve,
    Report.resolveStored_ne_nothingPublished⟩⟩
  obtain ⟨xs, hxs⟩ := exists_executesAll steps { report, index } n
  obtain ⟨context', hchain⟩ := hxs.exists_chain
  refine ⟨xs, hxs, fun before x after he => ?_, fun r hr => ?_⟩
  · simpa using hchain.moment Execution.shows_nil before after he
  · simpa using hxs.exists_shows Execution.shows_nil hr

end ComponentIdentity
