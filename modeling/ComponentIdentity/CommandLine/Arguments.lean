import ComponentIdentity.Settings
import ComponentIdentity.Files.Path

/-! # Arguments

An invocation is a command with its options and the options that every command
has, which may stand before the command or after it. Arguments are read from
left to right, and an option is settled when the next one is met.
-/

namespace ComponentIdentity

inductive Command where
  | resolve (report : Path) (format : Option String) (record : Bool)
  | lookup (report : Path) (format : Option String) (ref : Ref)
  | encode (input output : Path)
  | index
  | init (force : Bool)
  deriving DecidableEq, Repr

structure Invocation where
  command : Command
  config : Option Path
  flags : Overrides
  deriving DecidableEq, Repr

inductive UsageFault where
  | help
  | version
  | unknownArgument
  | invalidSubcommand
  | missingArgument
  | valueValidation
  | invalidValue
  | argumentConflict
  | tooManyValues
  deriving DecidableEq, Repr

inductive Opt where
  | verbose
  | quiet
  | config
  | database
  | jsonMode
  | help
  | version
  | report
  | format
  | record
  | deterministic
  | ref
  | input
  | output
  | force
  deriving DecidableEq, Repr

namespace Opt

def long : Opt → String
  | verbose => "verbose"
  | quiet => "quiet"
  | config => "config"
  | database => "database"
  | jsonMode => "json-mode"
  | help => "help"
  | version => "version"
  | report => "report"
  | format => "format"
  | record => "record"
  | deterministic => "deterministic"
  | ref => "ref"
  | input => "input"
  | output => "output"
  | force => "force"

def short? : Opt → Option Char
  | verbose => 'v'
  | quiet => 'q'
  | config => 'c'
  | database => 'D'
  | help => 'h'
  | version => 'V'
  | report => 'r'
  | format => 't'
  | input => 'i'
  | output => 'o'
  | force => 'f'
  | jsonMode | record | deterministic | ref => none

def takesValue : Opt → Bool
  | config | database | report | format | ref | input | output => true
  | _ => false

end Opt

namespace Arguments

/-- The number that a sign and digits spell, if it is a ref. -/
def refOf? (s : String) : Option Ref :=
  let (negative, digits) : Bool × List Char :=
    match s.toList with
    | '-' :: ds => (true, ds)
    | '+' :: ds => (false, ds)
    | ds => (false, ds)
  if digits ≠ [] ∧ digits.all Char.isDigit then
    let n := Nat.ofDigitChars 10 digits 0
    if n < UInt32.size ∧ (negative → n = 0) then some n.toUInt32 else none
  else none

def checkValue (o : Opt) (value : String) : Except UsageFault Unit :=
  match o with
  | .format => .ok ()
  | .ref => if (refOf? value).isSome then .ok () else .error .valueValidation
  | _ => if value = "" then .error .invalidValue else .ok ()

/-- The options of one command so far. The last option waits for its value, or for the next option
to settle it. -/
structure Level where
  known : List Opt
  subcommands : List String := []
  given : List (Opt × String) := []
  pending : Option (Opt × Option String) := none
  trailing : Bool := false

namespace Level

def store (level : Level) (o : Opt) (value : String) : Except UsageFault Level :=
  if (level.given.lookup o).isSome then .error .argumentConflict
  else do
    if o.takesValue then checkValue o value
    return { level with given := (o, value) :: level.given }

def settle (level : Level) : Except UsageFault Level :=
  match level.pending with
  | none => .ok level
  | some (_, none) => .error .invalidValue
  | some (o, some value) => { level with pending := none }.store o value

def flag (level : Level) (o : Opt) : Except UsageFault Level := do
  let level ← level.settle
  match o with
  | .help => throw .help
  | .version => throw .version
  | _ => level.store o ""

def withValue (level : Level) (o : Opt) : Option String → Except UsageFault Level
  | some value => do (← level.settle).store o value
  | none => do return { ← level.settle with pending := some (o, none) }

def awaits (level : Level) : Bool :=
  match level.pending with
  | some (_, none) => true
  | _ => false

/-- A name, and a value behind the first equals sign. -/
def splitEquals (cs : List Char) : String × Option String :=
  match cs.dropWhile (· ≠ '=') with
  | [] => (String.ofList cs, none)
  | _ :: value => (String.ofList (cs.takeWhile (· ≠ '=')), some (String.ofList value))

def longOption (level : Level) (cs : List Char) : Except UsageFault Level :=
  let (name, value) := splitEquals cs
  match level.known.find? (·.long == name), value with
  | none, _ => .error .unknownArgument
  | some o, value =>
    if o.takesValue then level.withValue o value
    else if value.isSome then .error .tooManyValues
    else level.flag o

/-- A value right behind its letter; an equals sign in front of it is dropped. -/
def attached : List Char → Option String
  | [] => none
  | '=' :: value => some (String.ofList value)
  | value => some (String.ofList value)

def shortOptions (level : Level) : List Char → Except UsageFault Level
  | [] => .ok level
  | c :: rest =>
    match level.known.find? (·.short? == some c) with
    | none => .error .unknownArgument
    | some o =>
      if o.takesValue then level.withValue o (attached rest)
      else do (← level.flag o).shortOptions rest

/-- An argument that is no option, no value and no command. -/
def stray (level : Level) (arg : String) : UsageFault :=
  if level.subcommands = [] ∨ (level.trailing ∧ arg ∈ level.subcommands) then .unknownArgument
  else .invalidSubcommand

def option (level : Level) (arg : String) : Except UsageFault Level :=
  match arg.toList with
  | '-' :: '-' :: name => level.longOption name
  | '-' :: c :: rest => level.shortOptions (c :: rest)
  | _ =>
    match level.pending with
    | some (o, none) => .ok { level with pending := some (o, some arg) }
    | _ => .error (level.stray arg)

/-- Reads up to a command, which is given back with what follows it. -/
def read (level : Level) : List String → Except UsageFault (Level × Option (String × List String))
  | [] => .ok (level, none)
  | arg :: rest =>
    if level.trailing then .error (level.stray arg)
    else if ¬level.awaits ∧ arg ∈ level.subcommands then .ok (level, some (arg, rest))
    else if arg = "--" then { level with trailing := true }.read rest
    else do (← level.option arg).read rest

def has (level : Level) (o : Opt) : Bool := (level.given.lookup o).isSome

def value? (level : Level) (o : Opt) : Option String := level.given.lookup o

def need (level : Level) (o : Opt) : Except UsageFault String :=
  match level.value? o with
  | some value => .ok value
  | none => .error .missingArgument

end Level

def shared : List Opt := [.verbose, .quiet, .config, .database, .jsonMode, .help]

def commandNames : List String := ["resolve", "lookup", "encode", "index", "init"]

def optionsOf (name : String) : List Opt :=
  if name = "resolve" then [.report, .format, .record, .deterministic]
  else if name = "lookup" then [.report, .format, .ref]
  else if name = "encode" then [.input, .output]
  else if name = "init" then [.force]
  else []

def commandOf (name : String) (level : Level) : Except UsageFault Command := do
  if name = "resolve" then
    return .resolve (← level.need .report) (level.value? .format) (level.has .record)
  else if name = "lookup" then
    let report ← level.need .report
    let ref ← level.need .ref
    return .lookup report (level.value? .format) ((refOf? ref).getD 0)
  else if name = "encode" then return .encode (← level.need .input) (← level.need .output)
  else if name = "init" then return .init (level.has .force)
  else return .index

/-- Help is asked for a command by its name. -/
def helpFor : List String → UsageFault
  | [] => .help
  | [name] => if name ∈ commandNames ∨ name = "help" then .help else .invalidSubcommand
  | _ => .invalidSubcommand

/-- A value behind the command counts before one in front of it. -/
def invocation (command : Command) (outer inner : Level) : Invocation where
  command := command
  config := inner.value? .config <|> outer.value? .config
  flags :=
    { database := inner.value? .database <|> outer.value? .database
      jsonOutput := inner.has .jsonMode || outer.has .jsonMode
      deterministicIds := inner.has .deterministic
      quiet := inner.has .quiet || outer.has .quiet
      verbose := inner.has .verbose || outer.has .verbose }

def parse (args : List String) : Except UsageFault Invocation := do
  let top : Level := { known := shared ++ [.version], subcommands := commandNames ++ ["help"] }
  match ← top.read args with
  | (outer, none) =>
    let outer ← outer.settle
    return invocation .index outer { known := [] }
  | (outer, some (name, rest)) =>
    if name = "help" then throw (helpFor rest)
    let (inner, _) ← Level.read { known := shared ++ optionsOf name } rest
    let inner ← inner.settle
    let command ← commandOf name inner
    return invocation command (← outer.settle) inner

end Arguments

end ComponentIdentity
