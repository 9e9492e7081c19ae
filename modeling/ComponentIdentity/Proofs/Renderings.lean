import ComponentIdentity.Proofs.Declared
import ComponentIdentity.Proofs.Writable
import ComponentIdentity.Report.Document

/-! # Renderings of a report in JSON

A report can be rendered in many ways: members and components in any order, what is
absent left out or said to be null, any spelling of the texts, blanks between the
tokens, and members of other names with any values. Every report has such a
rendering, and all of them are read as the report.
-/

namespace ComponentIdentity

open Json (Spelling Record)
open Json.Spelling (Spells SpellsChar plain spells_plain)

namespace Document

variable {v : Json Spelling} {r : Ref} {kind : Kind} {s : Spelling} {text : Option String}
  {field : Option (Json Spelling)} {children : List Ref} {m : Metadata} {c : Component}
  {report : Report}

def refNumber (r : Ref) : Json Spelling := .number (Nat.toDigits 10 r.toNat)

/-- What is absent is left out or null. -/
inductive OptionalText : Option String → Option (Json Spelling) → Prop where
  | leftOut : OptionalText none none
  | null : OptionalText none (some .null)
  | text {text : String} {s : Spelling} : Spells text s →
      OptionalText (some text) (some (.text s))

inductive Children : List Ref → Option (Json Spelling) → Prop where
  | leftOut : Children [] none
  | listed (children : List Ref) : Children children (some (.array (children.map refNumber)))

def RendersMetadata (m : Metadata) (v : Json Spelling) : Prop :=
  ∃ branch, OptionalText m.branch branch ∧
    Record [("root_ref", some (refNumber m.root)), ("branch", branch)] v

def RendersComponent (c : Component) (v : Json Spelling) : Prop :=
  ∃ kind key path children, Spells c.kind.name kind ∧ OptionalText c.key key ∧
    OptionalText c.path path ∧ Children c.children children ∧
    Record [("ref", some (refNumber c.ref)), ("type", some (.text kind)), ("key", key),
      ("path", path), ("child_refs", children)] v

/-- The metadata and, in any order, the components. -/
def RendersReport (report : Report) (v : Json Spelling) : Prop :=
  ∃ metadata cs components, RendersMetadata report.metadata metadata ∧ cs.Perm report.toList ∧
    List.Forall₂ RendersComponent cs components ∧
    Record [("metadata", some metadata), ("components", some (.array components))] v

theorem ref?_refNumber : ref? (refNumber r) = some r := by
  have hdigits : (Nat.toDigits 10 r.toNat).all Char.isDigit = true :=
    List.all_eq_true.mpr fun _ hc => Nat.isDigit_of_mem_toDigits (by decide) (by decide) hc
  have hnumber : (refNumber r).natural? = some r.toNat := by
    rw [refNumber, Json.natural?, if_pos hdigits, Nat.ofDigitChars_ten_toDigits]
  have hsize : r.toNat < UInt32.size := r.toNat_lt
  simp only [ref?, hnumber, Option.bind_eq_bind, Option.bind_some, if_pos hsize]
  exact congrArg some (by simp)

theorem kind?_of_spells (h : Spells kind.name s) : kind? (.text s) = some kind := by
  rw [kind?, Spelling.toText?_of_spells h, Option.bind_some, Kind.ofName?_name]

theorem optionalText?_of_optionalText (h : OptionalText text field) :
    optionalText? field = some text := by
  cases h with
  | leftOut => rfl
  | null => rfl
  | text hs =>
    simp only [optionalText?, Json.text?, Spelling.toText?_of_spells hs, Option.map_some]

theorem children?_of_children (h : Children children field) : children? field = some children := by
  cases h with
  | leftOut => rfl
  | listed =>
    refine List.mapM_eq_some_of_forall₂ (List.forall₂_map_left_iff.mpr ?_)
    exact List.forall₂_same.mpr fun _ _ => ref?_refNumber

theorem metadata?_of_renders (h : RendersMetadata m v) : metadata? v = some m := by
  obtain ⟨branch, hb, hv⟩ := h
  have hfields : v.fields? metadataFields = some [some (refNumber m.root), branch] :=
    Json.fields?_of_record hv (show metadataFields.Nodup by decide)
  simp only [metadata?, hfields, Option.bind_eq_bind, Option.bind_some, ref?_refNumber,
    optionalText?_of_optionalText hb, Option.pure_def]

theorem component?_of_renders (h : RendersComponent c v) : component? v = some c := by
  obtain ⟨kind, key, path, children, hkind, hkey, hpath, hchildren, hv⟩ := h
  have hfields : v.fields? componentFields =
      some [some (refNumber c.ref), some (.text kind), key, path, children] :=
    Json.fields?_of_record hv (show componentFields.Nodup by decide)
  simp only [component?, hfields, Option.bind_eq_bind, Option.bind_some, ref?_refNumber,
    kind?_of_spells hkind, optionalText?_of_optionalText hkey,
    optionalText?_of_optionalText hpath, children?_of_children hchildren, Option.pure_def]

theorem report?_of_renders (h : RendersReport report v) :
    ∃ cs : List Component, cs.Perm report.toList ∧ report? v = some (report.metadata, cs) := by
  obtain ⟨metadata, cs, components, hm, hp, hc, hv⟩ := h
  have hfields : v.fields? reportFields = some [some metadata, some (.array components)] :=
    Json.fields?_of_record hv (show reportFields.Nodup by decide)
  have hcomponents : components.mapM component? = some cs :=
    List.mapM_eq_some_of_forall₂ (hc.flip.imp fun _ _ => component?_of_renders)
  refine ⟨cs, hp, ?_⟩
  simp only [report?, hfields, Option.bind_eq_bind, Option.bind_some, metadata?_of_renders hm,
    hcomponents, Option.pure_def]

theorem exists_optionalText (text : Option String) :
    ∃ field, OptionalText text field ∧ ∀ v ∈ field, v.Writable := by
  cases text with
  | none => exact ⟨none, .leftOut, nofun⟩
  | some text =>
    obtain ⟨s, bytes, hs, hw⟩ := Spelling.exists_spells text
    refine ⟨_, .text hs, ?_⟩
    rintro _ ⟨⟩
    exact Json.writable_text hw

theorem writable_refNumber (r : Ref) : (refNumber r).Writable := Json.writable_toDigits _

theorem exists_children (children : List Ref) :
    ∃ field, Children children field ∧ ∀ v ∈ field, v.Writable := by
  refine ⟨_, .listed children, ?_⟩
  rintro _ ⟨⟩
  exact Json.writable_array (List.forall_mem_map.mpr fun r _ => writable_refNumber r)

theorem exists_rendersMetadata (m : Metadata) : ∃ v, RendersMetadata m v ∧ v.Writable := by
  obtain ⟨branch, hb, hw⟩ := exists_optionalText m.branch
  obtain ⟨v, hv, hvw⟩ := Json.exists_record
    [("root_ref", some (refNumber m.root)), ("branch", branch)]
    (by simpa using ⟨writable_refNumber _, hw⟩)
  exact ⟨v, ⟨branch, hb, hv⟩, hvw⟩

theorem exists_rendersComponent (c : Component) : ∃ v, RendersComponent c v ∧ v.Writable := by
  obtain ⟨kind, bytes, hkind, hwritten⟩ := Spelling.exists_spells c.kind.name
  obtain ⟨key, hkey, hkw⟩ := exists_optionalText c.key
  obtain ⟨path, hpath, hpw⟩ := exists_optionalText c.path
  obtain ⟨children, hchildren, hcw⟩ := exists_children c.children
  obtain ⟨v, hv, hvw⟩ := Json.exists_record
    [("ref", some (refNumber c.ref)), ("type", some (.text kind)), ("key", key), ("path", path),
      ("child_refs", children)]
    (by simpa using ⟨writable_refNumber _, Json.writable_text hwritten, hkw, hpw, hcw⟩)
  exact ⟨v, ⟨kind, key, path, children, hkind, hkey, hpath, hchildren, hv⟩, hvw⟩

theorem exists_rendersReport (report : Report) : ∃ v, RendersReport report v ∧ v.Writable := by
  obtain ⟨metadata, hm, hmw⟩ := exists_rendersMetadata report.metadata
  have hall : ∀ c ∈ report.toList, ∃ v, RendersComponent c v ∧ v.Writable := fun c _ =>
    exists_rendersComponent c
  obtain ⟨components, hc, hcw⟩ := Json.exists_forall₂ hall
  obtain ⟨v, hv, hvw⟩ := Json.exists_record
    [("metadata", some metadata), ("components", some (.array components))]
    (by simpa using ⟨hmw, Json.writable_array hcw⟩)
  exact ⟨v, ⟨metadata, report.toList, components, hm, .refl _, hc, hv⟩, hvw⟩

end Document

namespace Report

open Document (RendersMetadata RendersComponent refNumber)

def Renders (report : Report) (bytes : Bytes) : Prop :=
  ∃ v, Document.RendersReport report v ∧ v.Writes bytes

theorem exists_renders (report : Report) : ∃ bytes, report.Renders bytes := by
  obtain ⟨v, hv, hw⟩ := Document.exists_rendersReport report
  obtain ⟨bytes, hb⟩ := hw.exists_writes
  exact ⟨bytes, v, hv, hb⟩

/-- Every report can be rendered, and however it is rendered, it is read again. -/
theorem ofJson_of_renders (report : Report) :
    (∃ bytes, report.Renders bytes) ∧
      ∀ bytes, report.Renders bytes → ofJson bytes = .ok report := by
  refine ⟨report.exists_renders, ?_⟩
  rintro bytes ⟨v, hr, hw⟩
  obtain ⟨cs, hp, hv⟩ := Document.report?_of_renders hr
  rw [ofJson, Json.ofBytes?_eq_some_iff.mpr hw, Option.bind_some, hv]
  simp only [ofComponents_of_perm hp]
  rfl

/-- Everything comes in the opposite order, and a member of another name comes first. -/
def shuffledText : String :=
  "\x7b\"more\": [1.5e3, \x7b\"a\": null\x7d],\n \"components\": [" ++
    "\x7b\"path\": \"\\u00e9\", \"key\": null, \"type\": \"FILE\", \"ref\": 2\x7d,\n  " ++
    "\x7b\"child_refs\": [2], \"key\": \"\\uD83D\\ude00\", \"type\" : \"PROJECT\", " ++
    "\"ref\": 1\x7d],\n \"metadata\": \x7b\"root_ref\": 1\x7d\x7d"

def shuffledFile : Json Spelling :=
  .object [(plain "path", .text [.unit 0xe9]), (plain "key", .null),
    (plain "type", .text (plain "FILE")), (plain "ref", refNumber 2)]

def shuffledProject : Json Spelling :=
  .object [(plain "child_refs", .array [refNumber 2]),
    (plain "key", .text [.unit 0xd83d, .unit 0xde00]),
    (plain "type", .text (plain "PROJECT")), (plain "ref", refNumber 1)]

def shuffledValue : Json Spelling :=
  .object [
    (plain "more", .array [.number "1.5e3".toList, .object [(plain "a", .null)]]),
    (plain "components", .array [shuffledFile, shuffledProject]),
    (plain "metadata", .object [(plain "root_ref", refNumber 1)])]

def shuffledComponents : List Component :=
  [(Component.project 1 "😀").withChildren [2], Component.file 2 "é"]

theorem ofJson_of_renders_shuffledText : ∃ report,
    ofComponents { root := 1 } shuffledComponents = .ok report ∧
      report.Renders (Bytes.ofText shuffledText) ∧
      ofJson (Bytes.ofText shuffledText) = .ok report := by
  have hd : Declarable shuffledComponents := ⟨by decide, by decide, by decide⟩
  obtain ⟨report, hreport⟩ := exists_ofComponents (m := { root := 1 }) hd
  have hdecl := (declares_of_ofComponents hreport).2
  have hfile : RendersComponent (Component.file 2 "é") shuffledFile :=
    ⟨_, _, _, _, spells_plain _, .null, .text (.cons .unit .nil), .leftOut,
      Json.record_plain [] (List.reverse_perm _) nofun⟩
  have hpair : SpellsChar '😀' [.unit 0xd83d, .unit 0xde00] :=
    .pair (by decide) (by decide) (by decide)
  have hproject : RendersComponent ((Component.project 1 "😀").withChildren [2])
      shuffledProject :=
    ⟨_, _, _, _, spells_plain _, .text (.cons hpair .nil), .leftOut, .listed [2],
      Json.record_plain [] (List.reverse_perm _) nofun⟩
  have hmetadata : RendersMetadata report.metadata
      (.object [(plain "root_ref", refNumber 1)]) := by
    rw [hdecl.metadata_eq]
    exact ⟨_, .leftOut, Json.record_plain [] (List.Perm.refl _) nofun⟩
  have hperm := (hdecl.toList_perm hd.nodup).symm
  have hr : report.Renders (Bytes.ofText shuffledText) := by
    refine ⟨shuffledValue, ⟨_, shuffledComponents.reverse, _, hmetadata,
      (List.reverse_perm _).trans hperm, .cons hfile (.cons hproject .nil), ?_⟩, ?_⟩
    · exact Json.record_plain
        [("more", .array [.number "1.5e3".toList, .object [(plain "a", .null)]])]
        (List.reverse_perm _) (by decide)
    · exact Json.Token.laid_of_lex (by decide +kernel)
  exact ⟨report, hreport, hr, (ofJson_of_renders report).2 _ hr⟩

end Report

end ComponentIdentity
