import Reparse.Corpus.Registry
import Reparse.Files.Access
import Reparse.Toml.Reader

/-!
# Registry documents

A registry is written as an array of tables `project`.  Every field of a row is
required and no other field is accepted; a row may also be an array of its
fields in order.  Fields are decoded in the order of the document, and the
first fault counts.
-/

namespace Reparse.Corpus

/-! ## Rows -/

/-- Floats in faults are written without an exponent. -/
def plainLayout : Binary64.Layout := ⟨-400, 400, false, .up⟩

/-- A value as a fault tells it. -/
def describe : Toml → String
  | .text s => "string " ++ String.ofList (Text.quoted s.toList)
  | .bool value => s!"boolean `{value}`"
  | .int value => s!"integer `{value}`"
  | .float value =>
      s!"floating point `{String.ofList (value.write plainLayout)}`"
  | .array _ => "sequence"
  | .moment => "map"
  | .table _ => "map"

def wrongType {α : Type} (expected : String) (value : Toml) : Decoded α :=
  .error (.wrongType (describe value) expected)

def decodeText : Toml → Decoded String
  | .text s => .ok s
  | value => wrongType "a string" value

def decodeTexts : Toml → Decoded (List String)
  | .array items => items.mapM decodeText
  | value => wrongType "a sequence" value

/-- The fields of a row in the order in which missing ones are told. -/
def rowFields : List String := ["name", "repo_uri", "repo_ref", "exclude"]

structure RowFields where
  name : Option String := none
  repoUri : Option String := none
  repoRef : Option String := none
  exclude : Option (List String) := none

namespace RowFields

def row (fields : RowFields) : Decoded ProjectRow := do
  return ⟨← .required "name" fields.name,
    ← .required "repo_uri" fields.repoUri,
    ← .required "repo_ref" fields.repoRef,
    ← .required "exclude" fields.exclude⟩

def read (fields : RowFields) (name : String) (value : Toml) :
    Decoded RowFields :=
  match name with
  | "name" => (decodeText value).map fun s => { fields with name := some s }
  | "repo_uri" =>
      (decodeText value).map fun s => { fields with repoUri := some s }
  | "repo_ref" =>
      (decodeText value).map fun s => { fields with repoRef := some s }
  | "exclude" =>
      (decodeTexts value).map fun texts =>
        { fields with exclude := some texts }
  | name => .error (.unknownField name rowFields)

end RowFields

/-- The name that a moment has among the members of a record. -/
def momentField : String := "$__toml_private_datetime"

/-- The item at an index of the array of a row. -/
def item (items : List Toml) (index : Nat) : Decoded Toml :=
  match items[index]? with
  | some value => .ok value
  | none => .error (.wrongLength index "struct ProjectRow with 4 elements")

/-- A row.  A moment counts as a table of one member, which no row has. -/
def ProjectRow.ofToml : Toml → Decoded ProjectRow
  | .moment => .error (.unknownField momentField rowFields)
  | .table members => do
    (← members.foldlM (fun (fields : RowFields) (name, value) =>
      fields.read name value) {}).row
  | .array items => do
    let name ← item items 0 >>= decodeText
    let repoUri ← item items 1 >>= decodeText
    let repoRef ← item items 2 >>= decodeText
    return ⟨name, repoUri, repoRef, ← item items 3 >>= decodeTexts⟩
  | value => wrongType "struct ProjectRow" value

/-! ## Documents -/

def decodeRows : Toml → Decoded (List ProjectRow)
  | .array items => items.mapM ProjectRow.ofToml
  | value => wrongType "a sequence" value

/-- The rows of a document, whose only member is `project`. -/
def rowsOfMembers (members : List (String × Toml)) :
    Decoded (List ProjectRow) := do
  let rows ← members.foldlM (fun _ (name, value) =>
    if name = "project" then (decodeRows value).map some
    else throw (.unknownField name ["project"])) none
  .required "project" rows

namespace Registry

def read (origin : String) (text : String) : Except RegistryError Registry :=
  match Toml.read? text.toList with
  | none => .error (.malformed origin .notToml)
  | some members => do
    let rows ← (rowsOfMembers members).mapError fun e =>
      .malformed origin (.misfit e)
    Registry.ofRows origin rows

def load (files : Files.Entry) (path : Files.Path) :
    Except RegistryError Registry := do
  let text ← (files.readText path).mapError fun e =>
    .unreadable path.text e.message
  Registry.read path.text text

end Registry
end Reparse.Corpus
