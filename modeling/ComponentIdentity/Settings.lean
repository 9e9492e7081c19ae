import ComponentIdentity.Error
import ComponentIdentity.Text.Blank
import ComponentIdentity.Toml.Document

/-! # Settings

Settings come in layers: flags, the environment, a configuration file, defaults.
A flag can only switch something on.
-/

namespace ComponentIdentity

inductive LogFormat where
  | text
  | json
  deriving DecidableEq, Repr

namespace LogFormat

def name : LogFormat → String
  | text => "text"
  | json => "json"

def ofName? (s : String) : Option LogFormat := [text, json].find? (·.name == s)

/-- Blanks around the name and the case of its letters do not matter. -/
def parse (value : String) : Except Error LogFormat :=
  let value := Text.lowerAscii (Text.trim value)
  match ofName? value with
  | some f => .ok f
  | none => .error (.config (.logFormat value))

end LogFormat

/-- What a configuration file says; all of it may be left out. -/
structure Config where
  database : Option String := none
  logFormat : Option LogFormat := none
  jsonOutput : Option Bool := none
  deterministicIds : Option Bool := none
  deriving DecidableEq, Repr

namespace Config

open Toml (Tree)

def text? (tree : Tree) (name : String) : Option (Option String) :=
  match tree[[name]]? with
  | none => some none
  | some (.leaf (.text s)) => some (some s)
  | some _ => none

def bool? (tree : Tree) (name : String) : Option (Option Bool) :=
  match tree[[name]]? with
  | none => some none
  | some (.leaf (.bool b)) => some (some b)
  | some _ => none

/-- A variant may also be written as the only key of a table; it then has no contents. -/
def isEmptyVariant : Toml.Entry → Bool
  | .leaf .table | .leaf .emptyArray | .headed => true
  | _ => false

def logFormat? (tree : Tree) (name : String) : Option (Option LogFormat) :=
  match tree[[name]]? with
  | none => some none
  | some (.leaf (.text s)) => (LogFormat.ofName? s).map some
  | some (.leaf _) | some .headed | some .implied | some .dotted =>
    match tree.toList.filter fun e => [name].isPrefixOf e.1 && e.1 != [name] with
    | [([_, variant], entry)] =>
      if isEmptyVariant entry then (LogFormat.ofName? variant).map some else none
    | _ => none

def names : List String := ["database", "log_format", "json_output", "deterministic_ids"]

def ofTree? (tree : Tree) : Option Config := do
  if tree.keys.all fun path => names.contains (path.headD "") then
    return {
      database := ← text? tree "database"
      logFormat := ← logFormat? tree "log_format"
      jsonOutput := ← bool? tree "json_output"
      deterministicIds := ← bool? tree "deterministic_ids" }
  else none

def ofToml (content : String) : Except Error Config :=
  match (Tree.ofText? content).bind ofTree? with
  | some config => .ok config
  | none => .error (.config .invalid)

end Config

/-- What the command line says. -/
structure Overrides where
  database : Option String := none
  jsonOutput : Bool := false
  deterministicIds : Bool := false
  quiet : Bool := false
  verbose : Bool := false
  deriving DecidableEq, Repr

structure Settings where
  database : String
  logFormat : LogFormat
  jsonOutput : Bool
  deterministicIds : Bool
  quiet : Bool
  verbose : Bool
  deriving DecidableEq, Repr

def defaultDatabase : String := "compref.db"

def defaultConfigFile : String := "compref.toml"

abbrev Environment := String → Option String

namespace Environment

/-- A variable that is set to nothing counts as not set. -/
def get? (env : Environment) (name : String) : Option String := (env name).filter (· ≠ "")

def database? (env : Environment) : Option String := env.get? "COMPREF_DATABASE"

def logFormat? (env : Environment) : Option String := env.get? "COMPREF_LOG_FORMAT"

end Environment

def Config.settings (config : Config) (env : Environment) (flags : Overrides) :
    Except Error Settings := do
  let logFormat ← env.logFormat?.mapM LogFormat.parse
  return {
    database := (flags.database <|> env.database? <|> config.database).getD defaultDatabase
    logFormat := (logFormat <|> config.logFormat).getD .text
    jsonOutput := flags.jsonOutput || config.jsonOutput.getD false
    deterministicIds := flags.deterministicIds || config.deterministicIds.getD false
    quiet := flags.quiet
    verbose := flags.verbose }

def Settings.logFilter (settings : Settings) : String :=
  if settings.verbose then "compref=debug" else "compref=info"

end ComponentIdentity
