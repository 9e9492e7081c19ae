import ComponentIdentity.Resolution

/-! # Pipelines

Steps run in order over one context and the first failure ends the run. A feed
step resolves the report and publishes cache and counters together, so a reader
never sees one without the other.
-/

namespace ComponentIdentity

structure Context where
  report : Report
  index : IdentityIndex
  components : Option RefCache := none
  stats : Option Stats := none

def Context.publish (context : Context) (resolution : Resolution) : Context :=
  { context with components := some resolution.cache, stats := some resolution.stats }

/-- A step either feeds the context from a minter of its own or only watches it. What it makes of a
context may depend on those that it has seen, the latest first. -/
inductive Step (Note : Type) where
  | feed (minter : Minter)
  | watch (name : String) (seen : List Context) (look : List Context → Context → Except Error Note)

/-- A step that looks at every context alike. -/
def Step.read {Note : Type} (name : String) (look : Context → Except Error Note) : Step Note :=
  watch name [] fun _ => look

def Step.name {Note : Type} : Step Note → String
  | feed _ => "Feed components cache"
  | watch name _ _ => name

/-- Gives what was noted, or why the step failed, with the step and the context afterwards. -/
def Step.execute {Note : Type} : Step Note → Context →
    Except Error (List Note) × Step Note × Context
  | feed minter, context =>
    match (context.report.resolve context.index).run minter with
    | (.error e, minter) => (.error e, feed minter, context)
    | (.ok resolution, minter) => (.ok [], feed minter, context.publish resolution)
  | watch name seen look, context =>
    ((look seen context).map fun note => [note], watch name (context :: seen) look, context)

namespace Pipeline

variable {Note : Type}

/-- The state after a run: the steps with their minters, the context and what was read. -/
structure Run (Note : Type) where
  steps : List (Step Note)
  context : Context
  notes : List Note
  failure : Option Error

def Run.after (run : Run Note) (step : Step Note) (notes : List Note) : Run Note :=
  { run with steps := step :: run.steps, notes := notes ++ run.notes }

def run : List (Step Note) → Context → Run Note
  | [], context => ⟨[], context, [], none⟩
  | step :: rest, context =>
    match step.execute context with
    | (.error e, step, context) => ⟨step :: rest, context, [], some e⟩
    | (.ok notes, step, context) => (run rest context).after step notes

/-- The runs of one pipeline on one context, the first run first. -/
def runs (steps : List (Step Note)) (context : Context) : Nat → List (Run Note)
  | 0 => []
  | n + 1 =>
    let first := run steps context
    first :: runs first.steps first.context n

end Pipeline

namespace Report

/-- What a pipeline of a single feed step publishes. -/
def resolveOnce (report : Report) (index : IdentityIndex) (minter : Minter) :
    Except Error Resolution :=
  let run := Pipeline.run ([.feed minter] : List (Step Unit)) { report, index }
  match run.failure with
  | some e => .error e
  | none =>
    match run.context.components, run.context.stats with
    | some cache, some stats => .ok ⟨cache, stats⟩
    | _, _ => .error (.malformedReport .nothingPublished)

/-- The project key keeps projects apart, and the index size the runs over a growing index. -/
def seed (report : Report) (indexSize : Nat) : String :=
  let project := ((report.component? report.root).bind (·.key)).getD ""
  let branch := report.branch.getD ""
  "compref:" ++ project ++ ":" ++ branch ++ ":" ++ toString indexSize

end Report

end ComponentIdentity
