import ComponentIdentity.Json.Value
import ComponentIdentity.Report

/-! # JSON reports

A report document has the metadata and the list of components. Its records are
objects or arrays; members of an object that are not fields are skipped.
-/

namespace ComponentIdentity

namespace Document

def ref? (v : Json Json.Spelling) : Option Ref := do
  let n ← v.natural?
  if n < UInt32.size then return n.toUInt32 else none

/-- A name, or an object that maps the name to null. -/
def kind? : Json Json.Spelling → Option Kind
  | .text s => s.toText?.bind Kind.ofName?
  | .object [(s, .null)] => s.toText?.bind Kind.ofName?
  | _ => none

/-- A field that may be left out or null. -/
def optionalText? : Option (Json Json.Spelling) → Option (Option String)
  | none | some .null => some none
  | some v => v.text?.map some

def children? : Option (Json Json.Spelling) → Option (List Ref)
  | none => some []
  | some (.array items) => items.mapM ref?
  | some _ => none

def metadataFields : List String := ["root_ref", "branch"]

def metadata? (v : Json Json.Spelling) : Option Metadata := do
  match ← v.fields? metadataFields with
  | [some root, branch] => return { root := ← ref? root, branch := ← optionalText? branch }
  | _ => none

def componentFields : List String := ["ref", "type", "key", "path", "child_refs"]

def component? (v : Json Json.Spelling) : Option Component := do
  match ← v.fields? componentFields with
  | [some ref, some kind, key, path, children] =>
    return {
      ref := ← ref? ref
      kind := ← kind? kind
      key := ← optionalText? key
      path := ← optionalText? path
      children := ← children? children }
  | _ => none

def reportFields : List String := ["metadata", "components"]

/-- The metadata and the components, in document order. -/
def report? (v : Json Json.Spelling) : Option (Metadata × List Component) := do
  match ← v.fields? reportFields with
  | [some metadata, some (.array components)] =>
    return (← metadata? metadata, ← components.mapM component?)
  | _ => none

end Document

def Report.ofJson (bytes : Bytes) : Except Error Report :=
  match (Json.ofBytes? bytes).bind Document.report? with
  | none => .error (.malformedReport .invalidJson)
  | some (m, components) => (ofComponents m components).mapError .malformedReport

end ComponentIdentity
