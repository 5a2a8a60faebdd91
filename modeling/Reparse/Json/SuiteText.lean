import Reparse.Json.Record
import Reparse.Json.Suite

/-!
# Suite documents in a text

Documents are read from a text as they come.  A call in a text may also be an
array of its fields, and what stands in a field that it does not know is passed
over.
-/

namespace Reparse.Replay

open Json (Fault Reader Record RecordField Taken)
open Text (Rest)

/-! ## Calls -/

/-- The call of a name as a fault tells it. -/
def callTitle : String → String
  | "assert_parses" => "struct variant Call::AssertParses"
  | "assert_diagnoses" => "struct variant Call::AssertDiagnoses"
  | "assert_source_maps" => "struct variant Call::AssertSourceMaps"
  | "with_versions" => "struct variant Call::WithVersions"
  | _ => "struct variant Call::SetBuilderAttribute"

def readVersions : Reader Versions :=
  (Json.readList Json.readText).map NameSet.ofList

/-- A field of the call `name`; `call` reads the calls in it. -/
def callField (call : Reader Call) (name field : String) :
    RecordField CallFields :=
  match field with
  | "versions" =>
    .slot field readVersions (·.versions)
      (fun fields versions =>
        { fields with versions := some versions }) (name ≠ "with_versions")
  | "value" =>
    .slot field Json.readBool (·.value)
      (fun fields value => { fields with value := some value }) false
  | "calls" =>
    .slot field (Json.readList call) (·.calls)
      (fun fields calls => { fields with calls := some calls }) false
  | field =>
    .slot field Json.readText (·.text? field)
      (fun fields text =>
        { fields with texts := fields.texts ++ [(field, text)] }) false

/-- The fields of the call `name`; `call` reads the calls in it. -/
def callRecord (call : Reader Call) (name : String) :
    Record CallFields Call where
  title := callTitle name
  fields := (callFields name).map (callField call name)
  strict := false
  start := {}
  finish := fun fields => fields.call name

/-- The name of a call behind its opening quote. -/
def readCallName : Reader String := fun s =>
  match Json.readString s with
  | .error e => .error e
  | .ok (name, rest) =>
    if name ∈ callNames then .ok (name, rest)
    else .error (.before rest.val (.misfit (.unknownVariant name callNames)))

/-- The name of a call in front of its fields, and the colon. -/
def readCallHead : Reader String :=
  (Json.readAs "variant identifier" fun c r =>
    if c = '"' then some (Taken.after c (readCallName r))
    else none).andThen fun name =>
      Json.skipColon.map fun _ => name

def closeCall : Reader Unit :=
  Json.onFirst .endInObject fun c r =>
    if c = '\x7d' then .ok ((), Rest.tail c r)
    else .error (.before (c :: r) .valueMissing)

/-- The fault of a name alone in the place of a call, noticed at the next call
or at the end of the calls. -/
def bareNameFault (s : List Char) : Fault :=
  let flaw := Json.Flaw.misfit (.wrongType "unit variant" "struct variant")
  match (Json.skipSpace s).val with
  | ']' :: r => .before r flaw
  | ',' :: r => .before (Json.skipSpace r).val flaw
  | t => .before t flaw

/-- A call; calls may lie in each other `levels` deep. -/
def readCall (levels : Nat) : Reader Call :=
  Json.onFirst .endInValue fun c r =>
    if c = '\x7b' then
      match levels with
      | 0 => .error (.inside (c :: r) .tooDeep)
      | levels + 1 =>
        let fields := readCallHead.andThen fun name =>
          (callRecord (readCall levels) name).read
        Taken.after c
          ((fields.andThen fun call => closeCall.map fun _ => call) r)
    else if c = '"' then
      match readCallName r with
      | .error e => .error e
      | .ok (_, rest) => .error (bareNameFault rest.val)
    else .error (.inside (c :: r) .valueMissing)

/-- How deep calls may lie in each other.  Four brackets lie around the
outermost calls, and each call has three around the calls in it. -/
def maxLevels : Nat := (Json.maxDepth - 4) / 3

/-! ## Documents -/

def testRecord : Record TestFields Test where
  title := "struct TestDocument"
  fields :=
    [.slot "name" Json.readText (·.name) (fun fields name =>
      { fields with name := some name }) false,
      .slot "calls" (Json.readList (readCall maxLevels)) (·.calls)
        (fun fields calls => { fields with calls := some calls }) false]
  strict := true
  start := {}
  finish := fun fields => fields.read []

def documentRecord : Record DocumentFields Document where
  title := "struct SuiteDocument"
  fields :=
    [.slot "version" Json.readText (·.version)
        (fun fields version => { fields with version := some version }) false,
      .slot "tests" (Json.readList testRecord.read) (·.tests)
        (fun fields tests => { fields with tests := some tests }) false]
  strict := true
  start := {}
  finish := fun fields => fields.read []

def Document.read (text : List Char) : Except Fault Document :=
  Json.readAll documentRecord.read text

end Reparse.Replay
