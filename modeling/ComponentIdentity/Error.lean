import ComponentIdentity.Component

/-! # Failures

Every failure is a cause. `Error.message` is the one place where a cause turns
into the text that a reader sees.
-/

namespace ComponentIdentity

/-- The largest number of components in one report. -/
def maxComponents : Nat := 5000000

/-- The largest length of a key, in bytes. -/
def maxKeyBytes : Nat := 4000

/-- The largest encoded report, in bytes. -/
def maxEncodedBytes : Nat := 268435456

inductive ReportFault where
  | zeroRef
  | tooManyComponents
  | declaredTwice (ref : Ref)
  | missingRoot (root : Ref)
  | missingChild (parent child : Ref)
  | reachedTwice (ref : Ref)
  | rootKind (ref : Ref) (kind : Kind)
  | noKey (kind : Kind) (ref : Ref)
  | noPath (kind : Kind) (ref : Ref)
  | noModule (ref : Ref)
  | keyTooLong (ref : Ref)
  | sameKey (owner ref : Ref) (key : String)
  | invalidJson
  | nothingPublished
  deriving DecidableEq, Repr

def ReportFault.text : ReportFault → String
  | zeroRef => "component ref must be positive"
  | tooManyComponents => s!"report exceeds {maxComponents} components"
  | declaredTwice ref => s!"component ref {ref} is declared twice"
  | missingRoot root => s!"root component {root} does not exist"
  | missingChild parent child => s!"component {parent} references missing child {child}"
  | reachedTwice ref => s!"component {ref} is reached more than once (cycle or shared child)"
  | rootKind ref kind => s!"root component {ref} is a {kind}, expected PROJECT"
  | noKey kind ref => s!"{kind} component {ref} has no key"
  | noPath kind ref => s!"{kind} component {ref} has no path"
  | noModule ref => s!"component {ref} has no enclosing module"
  | keyTooLong ref => s!"key of component {ref} exceeds {maxKeyBytes} bytes"
  | sameKey owner ref key => s!"components {owner} and {ref} both resolve to key '{key}'"
  | invalidJson => "Invalid JSON report"
  | nothingPublished => "Pipeline finished without publishing components"

inductive PayloadFault where
  | endOfInput
  | unterminatedVarint
  | optionTag
  | invalidText
  | unknownKind
  deriving DecidableEq, Repr

def PayloadFault.text : PayloadFault → String
  | endOfInput => "Hit the end of buffer, expected more data"
  | unterminatedVarint =>
    "Found a varint that didn't terminate. Is the usize too big for this platform?"
  | optionTag => "Found an Option discriminant that wasn't 0 or 1"
  | invalidText => "Tried to parse invalid utf-8"
  | unknownKind => "Serde Deserialization Error"

inductive EncodingFault where
  | tooShort
  | tooLarge (size : Nat)
  | shortHeader
  | magic
  | version (found : UInt8)
  | payload (fault : PayloadFault)
  | fileTooLarge (size limit : Nat)
  deriving DecidableEq, Repr

def EncodingFault.text : EncodingFault → String
  | tooShort => "Data too short: minimum 5 bytes required"
  | tooLarge size => s!"Data size {size} bytes exceeds maximum allowed {maxEncodedBytes} bytes"
  | shortHeader => "Header too short"
  | magic => "Invalid magic bytes"
  | version found => s!"Unsupported report version: {found} (expected 1)"
  | payload fault => "Failed to decode report payload: " ++ fault.text
  | fileTooLarge size limit => s!"File size {size} bytes exceeds maximum allowed {limit} bytes"

/-- What the system answers when a file operation is refused. -/
inductive SystemFault where
  | noEntry
  | alreadyExists
  | notDirectory
  | isDirectory
  | nameTooLong
  | zeroByte
  | notText
  deriving DecidableEq, Repr

def SystemFault.text : SystemFault → String
  | noEntry => "No such file or directory (os error 2)"
  | alreadyExists => "File exists (os error 17)"
  | notDirectory => "Not a directory (os error 20)"
  | isDirectory => "Is a directory (os error 21)"
  | nameTooLong => "File name too long (os error 36)"
  | zeroByte => "file name contained an unexpected NUL byte"
  | notText => "stream did not contain valid UTF-8"

inductive StorageFault where
  | system (fault : SystemFault)
  | notDatabase
  | emptyDatabase
  | inUse
  deriving DecidableEq, Repr

def StorageFault.text : StorageFault → String
  | system fault => "I/O error: " ++ fault.text
  | notDatabase => "I/O error: Not a redb database: magic number mismatch"
  | emptyDatabase =>
    "I/O error: Database file is empty and creating a new database was not requested"
  | inUse => "Database already open. Cannot acquire lock."

inductive FileFault where
  | metadata (fault : SystemFault)
  | filePath (path : String) (fault : SystemFault)
  | notRegular (path : String)
  | outputDirectory (path : String) (fault : SystemFault)
  | notDirectory (path : String)
  | noFileName
  | reading (fault : SystemFault)
  | writing (fault : SystemFault)
  | removing (fault : SystemFault)
  | databaseExists
  | noDatabase (path : String)
  | storage (fault : StorageFault)
  /-- A failure in the words of the storage or the step that met it. -/
  | reported (text : String)
  deriving DecidableEq, Repr

def FileFault.text : FileFault → String
  | metadata fault => "Cannot read file metadata: " ++ fault.text
  | filePath path fault => s!"Invalid file path '{path}': " ++ fault.text
  | notRegular path => s!"Path '{path}' is not a regular file"
  | outputDirectory path fault => s!"Invalid output directory '{path}': " ++ fault.text
  | notDirectory path => s!"Output directory '{path}' is not a valid directory"
  | noFileName => "Output path has no filename"
  | reading fault => "Read file: " ++ fault.text
  | writing fault => "Write file: " ++ fault.text
  | removing fault => "Remove database: " ++ fault.text
  | databaseExists => "Database already exists. Use --force to overwrite."
  | noDatabase path => s!"Index database '{path}' does not exist. Run `compref init` first."
  | storage fault => fault.text
  | reported text => text

inductive ConfigFault where
  | reportFormat (value : String)
  | logFormat (value : String)
  | unreadable (path : String) (fault : SystemFault)
  | invalid
  deriving DecidableEq, Repr

def ConfigFault.text : ConfigFault → String
  | reportFormat value => s!"Unknown report format: {value}. Use: json, binary"
  | logFormat value => s!"Unknown log format: {value}. Use: text, json"
  | unreadable path fault => s!"Failed to read config file '{path}': " ++ fault.text
  | invalid => "Failed to parse config"

inductive Error where
  | malformedReport (fault : ReportFault)
  | duplicateRef (ref : Ref)
  | identifierCollision (key : String)
  | corruptIndex (key uuid : String)
  | serialization (fault : EncodingFault)
  | file (fault : FileFault)
  | config (fault : ConfigFault)
  deriving DecidableEq, Repr

namespace Error

inductive Category where
  | malformedReport
  | duplicateRef
  | identifierCollision
  | corruptIndex
  | serialization
  | file
  | config
  deriving DecidableEq, Repr

def category : Error → Category
  | malformedReport _ => .malformedReport
  | duplicateRef _ => .duplicateRef
  | identifierCollision _ => .identifierCollision
  | corruptIndex _ _ => .corruptIndex
  | serialization _ => .serialization
  | file _ => .file
  | config _ => .config

/-- The words that open every message of a category. -/
def Category.heading : Category → String
  | malformedReport => "Malformed report: "
  | duplicateRef => "Duplicate component ref: "
  | identifierCollision => "Identifier collision: "
  | corruptIndex => "Corrupt persisted index: "
  | serialization => "Serialization error: "
  | file => "I/O error: "
  | config => "Configuration error: "

def text : Error → String
  | malformedReport fault => fault.text
  | duplicateRef ref => toString ref
  | identifierCollision key => s!"no unique identifier could be minted for '{key}'"
  | corruptIndex key uuid => s!"identifier {uuid} for key '{key}' is already assigned"
  | serialization fault => fault.text
  | file fault => fault.text
  | config fault => fault.text

def message (e : Error) : String := e.category.heading ++ e.text

end Error

theorem Except.bind_eq_ok_iff {ε α β : Type} {x : Except ε α} {f : α → Except ε β} {b : β} :
    x >>= f = .ok b ↔ ∃ a, x = .ok a ∧ f a = .ok b := by
  cases x with
  | error e => simp [bind, Except.bind]
  | ok a => simp [bind, Except.bind]

theorem Except.bind_eq_error_iff {ε α β : Type} {x : Except ε α} {f : α → Except ε β} {e : ε} :
    x >>= f = .error e ↔ x = .error e ∨ ∃ a, x = .ok a ∧ f a = .error e := by
  cases x with
  | error e => simp [bind, Except.bind]
  | ok a => simp [bind, Except.bind]

theorem Except.mapError_eq_ok_iff {ε ε' α : Type} {x : Except ε α} {f : ε → ε'} {a : α} :
    x.mapError f = .ok a ↔ x = .ok a := by
  cases x with
  | error e => constructor <;> rintro ⟨⟩
  | ok b => constructor <;> (rintro ⟨⟩; rfl)

/-- What a computation that hands on a state gave, if its value is known to be some. -/
theorem Except.exists_of_toOption_map {ε α β σ : Type} {x : Except ε α × σ} {f : α → β} {b : β}
    (h : x.1.toOption.map f = some b) : ∃ a s, x = (.ok a, s) ∧ f a = b := by
  obtain ⟨e | a, s⟩ := x
  · cases h
  · exact ⟨a, s, rfl, Option.some.inj h⟩

namespace Stateful

variable {σ α β : Type} {s : σ}

theorem run_pure (a : α) : (pure a : ExceptT Error (StateM σ) α).run s = (.ok a, s) := rfl

theorem run_throw (e : Error) : (throw e : ExceptT Error (StateM σ) α).run s = (.error e, s) := rfl

theorem run_lift (x : Except Error α) : (liftM x : ExceptT Error (StateM σ) α).run s = (x, s) := rfl

theorem run_bind (x : ExceptT Error (StateM σ) α) (f : α → ExceptT Error (StateM σ) β) :
    (x >>= f).run s =
      match x.run s with
      | (.error e, s) => (.error e, s)
      | (.ok a, s) => (f a).run s := by
  change (ExceptT.bindCont f (x.run s).1) (x.run s).2 = _
  rcases x.run s with ⟨_ | _, _⟩ <;> rfl

end Stateful

end ComponentIdentity
