import Reparse.Json.Decode
import Reparse.Replay.Suite

/-!
# Suite documents as JSON

A document holds a version and tests, a test a name and calls.  Both know no
other fields.  A call is an object with one member, named for what is asserted;
further fields beside the known ones are ignored.
-/

namespace Reparse.Replay

/-! ## Calls -/

def callNames : List String :=
  ["assert_parses", "assert_diagnoses", "assert_source_maps", "with_versions",
    "set_builder_attribute"]

def callFields : String → List String
  | "assert_parses" => ["node", "source", "versions"]
  | "assert_diagnoses" => ["diagnostic", "source", "versions"]
  | "assert_source_maps" => ["source", "versions"]
  | "with_versions" => ["versions", "calls"]
  | _ => ["name", "value"]

def decodeVersions (json : Json) : Decoded Versions :=
  (json.decodeList Json.decodeText).map NameSet.ofList

/-- The fields of a call read so far. -/
structure CallFields where
  texts : List (String × String) := []
  versions : Option Versions := none
  value : Option Bool := none
  calls : Option (List Call) := none

namespace CallFields

def text? (fields : CallFields) (name : String) : Option String :=
  (fields.texts.find? (·.1 == name)).map (·.2)

def call (fields : CallFields) (name : String) : Decoded Call := do
  let text (field : String) : Decoded String :=
    .required field (fields.text? field)
  match name with
  | "assert_parses" =>
    return .parses (← text "node") (← text "source") (fields.versions.getD [])
  | "assert_diagnoses" =>
    return .diagnoses (← text "diagnostic") (← text "source")
      (fields.versions.getD [])
  | "assert_source_maps" =>
      return .sourceMaps (← text "source") (fields.versions.getD [])
  | "with_versions" =>
    return .withVersions (← .required "versions" fields.versions)
      (← .required "calls" fields.calls)
  | _ =>
      return .setAttribute (← text "name") (← .required "value" fields.value)

/-- The fields with one more whose value is a text, versions or a truth
value. -/
def read (fields : CallFields) (name : String) (value : Json) :
    Decoded CallFields :=
  match name with
  | "versions" => do
    let versions ← Decoded.once fields.versions (decodeVersions value)
    return { fields with versions }
  | "value" => do
    let value ← Decoded.once fields.value value.decodeBool
    return { fields with value }
  | name => do
    let text ← Decoded.once (fields.text? name) value.decodeText
    return { fields with texts := fields.texts ++ text.toList.map fun t =>
      (name, t) }

end CallFields

/-- What is wrong with a call that is not an object of its fields. -/
def misshapenCall (name : String) : Decoded Call :=
  if name ∈ callNames then .error .mismatch
  else .error (.unknownVariant name callNames)

mutual

def Call.ofJson : Json → Decoded Call
  | .obj [(name, .obj members)] =>
    if name ∈ callNames then Call.ofMembers name {} members
    else misshapenCall name
  | .obj [(name, _)] => misshapenCall name
  | .str name => misshapenCall name
  | _ => .error .mismatch

def Call.ofMembers (name : String) (fields : CallFields) :
    List (String × Json) → Decoded Call
  | [] => fields.call name
  | (field, value) :: rest =>
    if field ∉ callFields name then Call.ofMembers name fields rest
    else if field = "calls" then
      match value with
      | .arr items =>
        match Decoded.once fields.calls (Call.ofJsonList items) with
        | .error e => .error e
        | .ok calls => Call.ofMembers name { fields with calls } rest
      | _ => .error .mismatch
    else
      match fields.read field value with
      | .error e => .error e
      | .ok fields => Call.ofMembers name fields rest

def Call.ofJsonList : List Json → Decoded (List Call)
  | [] => .ok []
  | item :: items =>
    match Call.ofJson item with
    | .error e => .error e
    | .ok call =>
      match Call.ofJsonList items with
      | .error e => .error e
      | .ok calls => .ok (call :: calls)

end

/-! ## Documents -/

def decodeCalls (json : Json) : Decoded (List Call) :=
  (Decoded.ofOption json.items?).bind Call.ofJsonList

structure TestFields where
  name : Option String := none
  calls : Option (List Call) := none

def TestFields.read (fields : TestFields) : List (String × Json) → Decoded Test
  | [] =>
      do return ⟨← .required "name" fields.name,
        ← .required "calls" fields.calls⟩
  | ("name", value) :: rest => do
    let name ← Decoded.once fields.name value.decodeText
    { fields with name }.read rest
  | ("calls", value) :: rest => do
    let calls ← Decoded.once fields.calls (decodeCalls value)
    { fields with calls }.read rest
  | (name, _) :: _ => .error (.unknownField name ["name", "calls"])

def Test.ofJson : Json → Decoded Test
  | .obj members => TestFields.read {} members
  | .arr (name :: calls :: rest) => do
    let test := ⟨← name.decodeText, ← decodeCalls calls⟩
    Decoded.noMore rest
    return test
  | _ => .error .mismatch

structure DocumentFields where
  version : Option String := none
  tests : Option (List Test) := none

def DocumentFields.read (fields : DocumentFields) :
    List (String × Json) → Decoded Document
  | [] =>
      do return ⟨← .required "version" fields.version,
        ← .required "tests" fields.tests⟩
  | ("version", value) :: rest => do
    let version ← Decoded.once fields.version value.decodeText
    { fields with version }.read rest
  | ("tests", value) :: rest => do
    let tests ← Decoded.once fields.tests (value.decodeList Test.ofJson)
    { fields with tests }.read rest
  | (name, _) :: _ => .error (.unknownField name ["version", "tests"])

def Document.ofJson : Json → Decoded Document
  | .obj members => DocumentFields.read {} members
  | .arr (version :: tests :: rest) => do
    let document := ⟨← version.decodeText, ← tests.decodeList Test.ofJson⟩
    Decoded.noMore rest
    return document
  | _ => .error .mismatch

end Reparse.Replay
