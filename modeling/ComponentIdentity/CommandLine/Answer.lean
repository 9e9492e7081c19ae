import ComponentIdentity.Json.Pretty
import ComponentIdentity.Resolution
import ComponentIdentity.Settings
import ComponentIdentity.Text.Quoted

/-! # Answers

What a command found or did, and how it is written: as text, which the quiet
setting cuts down to the facts, or as JSON.
-/

namespace ComponentIdentity

inductive Answer where
  | resolved (report database : String) (components : List (Ref × ResolvedComponent))
      (stats : Stats) (recorded : Option Nat)
  | found (ref : Ref) (component : Option ResolvedComponent)
  | encoded (output : String) (bytes components : Nat)
  | listed (database : String) (entries : List (String × String))
  | initialized (database : String)
  deriving DecidableEq, Repr

namespace Answer

open Json (natural)

def componentJson (c : ResolvedComponent) : Json String :=
  .object [("ref", natural c.ref.toNat), ("key", .text c.key), ("uuid", .text c.uuid)]

def statsJson (s : Stats) : Json String :=
  .object [("resolved", natural s.resolved), ("reused", natural s.reused),
    ("minted", natural s.minted), ("unreachable", natural s.unreachable)]

/-- An answer as JSON; a new database is announced in text alone. -/
def json? : Answer → Option (Json String)
  | resolved _ database components stats recorded =>
    some (.object [("database", .text database),
      ("components", .array (components.map (componentJson ·.2))), ("stats", statsJson stats),
      ("recorded", (recorded.map natural).getD .null)])
  | found _ (some c) => some (.object [("found", .bool true), ("component", componentJson c)])
  | found ref none => some (.object [("found", .bool false), ("ref", natural ref.toNat)])
  | encoded output bytes components =>
    some (.object [("output", .text output), ("bytes", natural bytes),
      ("components", natural components)])
  | listed database entries =>
    some (.object [("database", .text database), ("entry_count", natural entries.length),
      ("entries", .array (entries.map fun e =>
        .object [("key", .text e.1), ("uuid", .text e.2)]))])
  | initialized _ => none

def line (parts : List String) : String := String.join parts ++ "\n"

def padLeft (width : Nat) (s : String) : String :=
  String.ofList (List.replicate (width - s.length) ' ') ++ s

def componentLine (e : Ref × ResolvedComponent) : String :=
  line [padLeft 8 (toString e.1), "  ", e.2.uuid, "  ", e.2.key]

def heading (quiet : Bool) (lines : List String) : String :=
  if quiet then "" else String.join (lines.map (· ++ "\n"))

def statsText (s : Stats) : String :=
  s!"Resolved: {s.resolved}  Reused: {s.reused}  Minted: {s.minted}  Unreachable: {s.unreachable}"

def recordedText (database : String) : Option Nat → List String
  | none => []
  | some n => [s!"Recorded {n} identities to " ++ Text.Quoted.encode database]

def text (quiet : Bool) : Answer → String
  | resolved report database components stats recorded =>
    heading quiet ["Resolved Components", "===================",
        "Report:   " ++ Text.Quoted.encode report, "Database: " ++ Text.Quoted.encode database, ""] ++
      String.join (components.map componentLine) ++
      heading quiet (["", statsText stats] ++ recordedText database recorded)
  | found ref (some c) => line ["Ref:  ", toString ref] ++ line ["Key:  ", c.key] ++
      line ["UUID: ", c.uuid]
  | found ref none => line ["Component ", toString ref, " not found"]
  | encoded output bytes _ =>
    heading quiet [s!"Encoded {bytes} bytes to " ++ Text.Quoted.encode output]
  | listed database entries =>
    heading quiet ["Compref Index", "=============",
        "Database: " ++ Text.Quoted.encode database, s!"Entries:  {entries.length}", ""] ++
      String.join (entries.map fun e => line [e.2, "  ", e.1])
  | initialized database =>
    heading quiet ["Initialized new index database at " ++ Text.Quoted.encode database]

def render (settings : Settings) (answer : Answer) : String :=
  match settings.jsonOutput, answer.json? with
  | true, some json => json.pretty 0 ++ "\n"
  | _, _ => answer.text settings.quiet

end Answer

end ComponentIdentity
