import ComponentIdentity.CommandLine.Answer
import ComponentIdentity.CommandLine.Arguments
import ComponentIdentity.Files.Index
import ComponentIdentity.Files.Report
import ComponentIdentity.Pipeline

/-! # The command line

A command is a step from one state of the files to the next, with an answer or a
failure. What it did to the files before it failed stays done.
-/

namespace ComponentIdentity

abbrev Filing := ExceptT Error (StateM Files)

namespace Filing

def look {α : Type} (f : Files → Except Error α) : Filing α := do f (← get)

def change {α : Type} (f : Files → Except Error (α × Files)) : Filing α := do
  let (a, files) ← f (← get)
  set files
  return a

end Filing

def Files.loadConfig (files : Files) (explicit : Option Path) : Except Error Config :=
  let load (path : Path) : Except Error Config := do
    Config.ofToml (← (files.readText path).mapError (.config ∘ .unreadable path))
  match explicit with
  | some path => load path
  | none => if files.isFile defaultConfigFile then load defaultConfigFile else .ok {}

namespace Report

/-- Deterministic runs mint from the seed of the report, others from the minter given. -/
def minterFor (report : Report) (deterministic : Bool) (index : IdentityTables) (fresh : Minter) :
    Minter :=
  if deterministic then .seeded (report.seed index.size) else fresh

def resolveStored (report : Report) (deterministic : Bool) (index : IdentityTables)
    (fresh : Minter) : Except Error Resolution :=
  report.resolveOnce index.toIndex (report.minterFor deterministic index fresh)

end Report

namespace Command

def parseFormat (format : Option String) : Except Error (Option ReportFormat) :=
  format.mapM ReportFormat.parse

def runResolve (settings : Settings) (fresh : Minter) (report : Path) (format : Option String)
    (record : Bool) : Filing Answer := do
  let format ← parseFormat format
  let r ← Filing.look (·.readReport report format)
  if record then
    let index ← Filing.change (·.openIndex settings.database)
    let resolution ← r.resolveStored settings.deterministicIds index.tables fresh
    let recorded ← Filing.change fun files => do
      let (_, n, files) ← files.record index resolution.cache
      return (n, files)
    return .resolved report settings.database resolution.cache.toList resolution.stats recorded
  else
    let index ← Filing.look (·.openExistingIndex settings.database)
    let resolution ← r.resolveStored settings.deterministicIds index.tables fresh
    return .resolved report settings.database resolution.cache.toList resolution.stats none

def runLookup (settings : Settings) (fresh : Minter) (report : Path) (format : Option String)
    (ref : Ref) : Filing Answer := do
  let format ← parseFormat format
  let r ← Filing.look (·.readReport report format)
  let index ← Filing.look (·.openExistingIndex settings.database)
  let resolution ← r.resolveStored settings.deterministicIds index.tables fresh
  return .found ref (resolution.cache.get? ref)

def runEncode (input output : Path) : Filing Answer := do
  let place ← Filing.look (·.outputLocation output)
  let r ← Filing.look (·.readReport input (some .json))
  let bytes := r.toBytes
  Filing.change fun files => do
    return ((), ← (files.write place.toPath bytes).mapError (.file ∘ .writing))
  return .encoded place.toPath bytes.length r.size

def runIndex (settings : Settings) : Filing Answer := do
  let index ← Filing.look (·.openExistingIndex settings.database)
  return .listed settings.database index.tables.entries

def runInit (settings : Settings) (force : Bool) : Filing Answer := do
  if (← get).isPresent settings.database then
    if force then
      Filing.change fun files => do
        return ((), ← (files.remove settings.database).mapError (.file ∘ .removing))
    else throw (.file .databaseExists)
  let _ ← Filing.change (·.openIndex settings.database)
  return .initialized settings.database

def run (settings : Settings) (fresh : Minter) : Command → Filing Answer
  | resolve report format record => runResolve settings fresh report format record
  | lookup report format ref => runLookup settings fresh report format ref
  | encode input output => runEncode input output
  | index => runIndex settings
  | init force => runInit settings force

end Command

def Invocation.settings (invocation : Invocation) (env : Environment) (files : Files) :
    Except Error Settings := do
  (← files.loadConfig invocation.config).settings env invocation.flags

inductive Outcome where
  | usage (fault : UsageFault)
  | misconfigured (e : Error)
  | failed (e : Error)
  | printed (text : String)
  deriving DecidableEq, Repr

namespace CommandLine

def versionText : String := "compref 0.4.2\n"

/-- Arguments are read first, then the settings are settled, then the command runs. -/
def run (args : List String) (env : Environment) (fresh : Minter) (files : Files) :
    Outcome × Files :=
  match Arguments.parse args with
  | .error fault => (.usage fault, files)
  | .ok invocation =>
    match invocation.settings env files with
    | .error e => (.misconfigured e, files)
    | .ok settings =>
      match (invocation.command.run settings fresh).run files with
      | (.error e, files) => (.failed e, files)
      | (.ok answer, files) => (.printed (answer.render settings), files)

end CommandLine

end ComponentIdentity
