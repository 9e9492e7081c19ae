import ComponentIdentity.CommandLine.Answer
import ComponentIdentity.Proofs.Pretty

/-! # What an answer shows

As JSON an answer is a record of what was found or done: numbers in digits, texts in
any spelling. As text it has a line for each component or entry, and around them,
unless it is asked to be quiet, the figures of the run.
-/

namespace ComponentIdentity

open Json (Spelling Record)
open Json.Spelling (Spells)

def Json.digits (n : Nat) : Json Spelling := .number (Nat.toDigits 10 n)

/-- The value is the text, in any spelling. -/
def Json.HasText (text : String) (v : Json Spelling) : Prop := ∃ s, Spells text s ∧ v = .text s

open Json (digits HasText)

namespace ResolvedComponent

variable {c : ResolvedComponent}

def IsRecord (c : ResolvedComponent) (v : Json Spelling) : Prop :=
  ∃ key uuid, HasText c.key key ∧ HasText c.uuid uuid ∧
    Record [("ref", some (digits c.ref.toNat)), ("key", some key), ("uuid", some uuid)] v

/-- The ref, behind any number of blanks, the identifier and the key. -/
def IsLine (ref : Ref) (c : ResolvedComponent) (line : String) : Prop :=
  ∃ blanks : List Char, (∀ b ∈ blanks, b = ' ') ∧
    line = String.ofList blanks ++ toString ref ++ "  " ++ c.uuid ++ "  " ++ c.key ++ "\n"

end ResolvedComponent

namespace Stats

def IsRecord (stats : Stats) (v : Json Spelling) : Prop :=
  Record [("resolved", some (digits stats.resolved)), ("reused", some (digits stats.reused)),
    ("minted", some (digits stats.minted)), ("unreachable", some (digits stats.unreachable))] v

def line (stats : Stats) : String :=
  "Resolved: " ++ toString stats.resolved ++ "  Reused: " ++ toString stats.reused ++
    "  Minted: " ++ toString stats.minted ++ "  Unreachable: " ++ toString stats.unreachable ++ "\n"

end Stats

namespace Answer

variable {settings : Settings} {answer : Answer} {json : Json String} {quiet : Bool}

def IsEntry (e : String × String) (v : Json Spelling) : Prop :=
  ∃ key uuid, HasText e.1 key ∧ HasText e.2 uuid ∧ Record [("key", some key), ("uuid", some uuid)] v

inductive IsRecord : Answer → Json Spelling → Prop where
  | resolved {report database : String} {components : List (Ref × ResolvedComponent)}
      {stats : Stats} {recorded : Option Nat} {name figures v : Json Spelling}
      {items : List (Json Spelling)} :
      HasText database name → List.Forall₂ (fun e => e.2.IsRecord) components items →
      stats.IsRecord figures →
      Record [("database", some name), ("components", some (.array items)),
        ("stats", some figures), ("recorded", some ((recorded.map digits).getD .null))] v →
      IsRecord (.resolved report database components stats recorded) v
  | found {ref : Ref} {c : ResolvedComponent} {component v : Json Spelling} :
      c.IsRecord component →
      Record [("found", some (.bool true)), ("component", some component)] v →
      IsRecord (.found ref (some c)) v
  | missing {ref : Ref} {v : Json Spelling} :
      Record [("found", some (.bool false)), ("ref", some (digits ref.toNat))] v →
      IsRecord (.found ref none) v
  | encoded {output : String} {bytes components : Nat} {name v : Json Spelling} :
      HasText output name →
      Record [("output", some name), ("bytes", some (digits bytes)),
        ("components", some (digits components))] v →
      IsRecord (.encoded output bytes components) v
  | listed {database : String} {entries : List (String × String)} {name v : Json Spelling}
      {items : List (Json Spelling)} :
      HasText database name → List.Forall₂ IsEntry entries items →
      Record [("database", some name), ("entry_count", some (digits entries.length)),
        ("entries", some (.array items))] v →
      IsRecord (.listed database entries) v

/-- The text of an answer. What is only said unless it is to be quiet stands at its ends. -/
inductive IsText (quiet : Bool) : Answer → String → Prop where
  | resolved {report database head foot : String}
      {components : List (Ref × ResolvedComponent)} {stats : Stats} {recorded : Option Nat}
      {lines : List String} :
      List.Forall₂ (fun e => e.2.IsLine e.1) components lines →
      (quiet = true → head = "" ∧ foot = "") →
      (quiet = false → head = "Resolved Components\n===================\nReport:   " ++
        Text.Quoted.encode report ++ "\n" ++
        "Database: " ++ Text.Quoted.encode database ++ "\n" ++ "\n") →
      (quiet = false → foot = "\n" ++ stats.line ++ recorded.elim "" fun n =>
        "Recorded " ++ toString n ++ " identities to " ++ Text.Quoted.encode database ++ "\n") →
      IsText quiet (.resolved report database components stats recorded)
        (head ++ String.join lines ++ foot)
  | found {ref : Ref} {c : ResolvedComponent} : IsText quiet (.found ref (some c))
      ("Ref:  " ++ toString ref ++ "\n" ++ "Key:  " ++ c.key ++ "\n" ++ "UUID: " ++ c.uuid ++ "\n")
  | missing {ref : Ref} :
      IsText quiet (.found ref none) ("Component " ++ toString ref ++ " not found\n")
  | encoded {output text : String} {bytes components : Nat} :
      (quiet = true → text = "") →
      (quiet = false → text = "Encoded " ++ toString bytes ++ " bytes to " ++
        Text.Quoted.encode output ++ "\n") →
      IsText quiet (.encoded output bytes components) text
  | listed {database head : String} {entries : List (String × String)} {lines : List String} :
      List.Forall₂ (fun e line => line = e.2 ++ "  " ++ e.1 ++ "\n") entries lines →
      (quiet = true → head = "") →
      (quiet = false → head = "Compref Index\n=============\nDatabase: " ++
        Text.Quoted.encode database ++ "\n" ++
        "Entries:  " ++ toString entries.length ++ "\n" ++ "\n") →
      IsText quiet (.listed database entries) (head ++ String.join lines)
  | initialized {database text : String} : (quiet = true → text = "") →
      (quiet = false → text = "Initialized new index database at " ++
        Text.Quoted.encode database ++ "\n") →
      IsText quiet (.initialized database) text

/-- What is printed of an answer: a JSON text of its value, or its text if that is asked for or it
has no value. -/
inductive Shows (settings : Settings) : Answer → String → Prop where
  | json {answer : Answer} {text : String} {v : Json Spelling} : settings.jsonOutput = true →
      answer.IsRecord v → v.Writes (Bytes.ofText text) → Shows settings answer text
  | text {answer : Answer} {text : String} :
      settings.jsonOutput = false ∨ (∃ database, answer = .initialized database) →
      answer.IsText settings.quiet text → Shows settings answer text

theorem isLine_componentLine (e : Ref × ResolvedComponent) :
    e.2.IsLine e.1 (componentLine e) := by
  refine ⟨List.replicate (8 - (toString e.1).length) ' ',
    fun _ hb => List.eq_of_mem_replicate hb, ?_⟩
  simp [componentLine, line, padLeft, String.append_assoc]

theorem toString_text (s : String) : toString s = s := rfl

theorem line_eq (stats : Stats) : statsText stats ++ "\n" = stats.line := rfl

theorem isText_text : answer.IsText quiet (answer.text quiet) := by
  cases answer with
  | resolved report database components stats recorded =>
    refine .resolved (List.forall₂_map_right_iff.mpr (List.forall₂_same.mpr fun e _ =>
      isLine_componentLine e)) ?_ ?_ ?_
    · rintro rfl
      exact ⟨rfl, rfl⟩
    · rintro rfl
      simp [heading, ← String.append_assoc]
    · rintro rfl
      simp only [heading, Bool.false_eq_true, if_false, List.cons_append, List.map_cons,
        String.join_cons, String.empty_append, line_eq]
      cases recorded with
      | none => rfl
      | some n => simp [recordedText, toString_text, String.append_assoc]
  | found ref component =>
    cases component with
    | none =>
      have htext : text quiet (.found ref none) =
          "Component " ++ toString ref ++ " not found\n" := by
        simp [text, line, String.append_assoc]
      exact htext ▸ .missing
    | some c =>
      have htext : text quiet (.found ref (some c)) = "Ref:  " ++ toString ref ++ "\n" ++
          "Key:  " ++ c.key ++ "\n" ++ "UUID: " ++ c.uuid ++ "\n" := by
        simp only [text, line, String.join_cons, String.join_nil, String.append_assoc,
          String.empty_append]
      exact htext ▸ .found
  | encoded output bytes components =>
    refine .encoded ?_ ?_
    · rintro rfl
      rfl
    · rintro rfl
      simp [text, heading, String.append_assoc, toString_text]
  | listed database entries =>
    refine .listed (List.forall₂_map_right_iff.mpr (List.forall₂_same.mpr fun e _ => ?_)) ?_ ?_
    · simp [line, String.append_assoc]
    · rintro rfl
      rfl
    · rintro rfl
      simp [heading, ← String.append_assoc, toString_text]
  | initialized database =>
    refine .initialized ?_ ?_
    · rintro rfl
      rfl
    · rintro rfl
      simp [text, heading, String.append_assoc]

theorem hasText_spelled (text : String) : HasText text (Json.text text).spelled :=
  ⟨_, Json.Spelling.spells_ofText text, rfl⟩

theorem isRecord_componentJson (c : ResolvedComponent) :
    c.IsRecord (componentJson c).spelled :=
  ⟨_, _, hasText_spelled c.key, hasText_spelled c.uuid, Json.record_spelled _⟩

theorem isRecord_statsJson (stats : Stats) : stats.IsRecord (statsJson stats).spelled :=
  Json.record_spelled _

theorem forall₂_spelled {α : Type} {items : List α} {related : α → Json Spelling → Prop}
    {f : α → Json String} (h : ∀ a, related a (f a).spelled) :
    List.Forall₂ related items (Json.spelledItems (items.map f)) := by
  rw [Json.spelledItems_eq, List.map_map, List.forall₂_map_right_iff, List.forall₂_same]
  exact fun a _ => h a

theorem isRecord_spelled (h : answer.json? = some json) : answer.IsRecord json.spelled := by
  cases answer with
  | resolved report database components stats recorded =>
    cases h
    refine .resolved (hasText_spelled database)
      (forall₂_spelled fun e => isRecord_componentJson e.2) (isRecord_statsJson stats) ?_
    cases recorded <;> exact Json.record_spelled _
  | found ref component =>
    cases component with
    | none =>
      cases h
      exact .missing (Json.record_spelled _)
    | some c =>
      cases h
      exact .found (isRecord_componentJson c) (Json.record_spelled _)
  | encoded output bytes components =>
    cases h
    exact .encoded (hasText_spelled output) (Json.record_spelled _)
  | listed database entries =>
    cases h
    refine .listed (hasText_spelled database) (forall₂_spelled fun e => ?_) (Json.record_spelled _)
    exact ⟨_, _, hasText_spelled e.1, hasText_spelled e.2, Json.record_spelled _⟩
  | initialized database => cases h

theorem shown_componentJson (c : ResolvedComponent) : (componentJson c).Shown := by
  refine Json.shown_object ?_
  simp only [List.forall_mem_cons]
  exact ⟨Json.shown_natural _, Json.shown_text _, Json.shown_text _, nofun⟩

theorem shown_of_json? (h : answer.json? = some json) : json.Shown := by
  cases answer with
  | resolved report database components stats recorded =>
    cases h
    have hstats : (statsJson stats).Shown := by
      refine Json.shown_object ?_
      simp only [List.forall_mem_cons]
      exact ⟨Json.shown_natural _, Json.shown_natural _, Json.shown_natural _,
        Json.shown_natural _, nofun⟩
    have hrecorded : ((recorded.map Json.natural).getD .null).Shown := by
      cases recorded with
      | none => exact Json.shown_null
      | some n => exact Json.shown_natural n
    refine Json.shown_object ?_
    simp only [List.forall_mem_cons]
    exact ⟨Json.shown_text _, Json.shown_array (List.forall_mem_map.mpr fun e _ =>
      shown_componentJson e.2), hstats, hrecorded, nofun⟩
  | found ref component =>
    cases component with
    | none =>
      cases h
      refine Json.shown_object ?_
      simp only [List.forall_mem_cons]
      exact ⟨Json.shown_bool _, Json.shown_natural _, nofun⟩
    | some c =>
      cases h
      refine Json.shown_object ?_
      simp only [List.forall_mem_cons]
      exact ⟨Json.shown_bool _, shown_componentJson c, nofun⟩
  | encoded output bytes components =>
    cases h
    refine Json.shown_object ?_
    simp only [List.forall_mem_cons]
    exact ⟨Json.shown_text _, Json.shown_natural _, Json.shown_natural _, nofun⟩
  | listed database entries =>
    cases h
    have hentry : ∀ e : String × String,
        (Json.object [("key", .text e.1), ("uuid", .text e.2)]).Shown := by
      intro e
      refine Json.shown_object ?_
      simp only [List.forall_mem_cons]
      exact ⟨Json.shown_text _, Json.shown_text _, nofun⟩
    refine Json.shown_object ?_
    simp only [List.forall_mem_cons]
    exact ⟨Json.shown_text _, Json.shown_natural _,
      Json.shown_array (List.forall_mem_map.mpr fun e _ => hentry e), nofun⟩
  | initialized database => cases h

theorem shows_render (settings : Settings) (answer : Answer) :
    answer.Shows settings (answer.render settings) := by
  unfold render
  split
  next json hj ha =>
    refine .json hj (isRecord_spelled ha) ?_
    rw [Json.Writes, Bytes.ofText_append, ← List.append_nil json.spelled.tokens]
    exact (shown_of_json? ha 0).append Json.Token.laid_newline
  next hne =>
    refine .text ?_ isText_text
    cases hj : settings.jsonOutput with
    | false => exact .inl rfl
    | true =>
      cases answer with
      | initialized database => exact .inr ⟨database, rfl⟩
      | resolved | encoded | listed => exact absurd rfl (hne _ hj)
      | found ref component => cases component <;> exact absurd rfl (hne _ hj)

end Answer

end ComponentIdentity
