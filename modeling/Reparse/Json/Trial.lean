import Reparse.Json.Decode
import Reparse.Json.Writer
import Reparse.Trial

/-!
# Trials as JSON

A source is an object of its bytes and the name of its encoding.  An outcome is
an error on the left or a value on the right, the one member of an object.

An error is an object whose member `error` or `stage` names its cause, with the
details beside it.  The error of a stage holds the members of the error it
wraps.
-/

namespace Reparse

/-! ## Sources and outcomes -/

def Encoding.key : Encoding → String
  | utf8 => "utf8"
  | usAscii => "us_ascii"
  | binary => "binary"

def Source.toJson (source : Source) : Json :=
  .obj [("bytes", .arr (source.bytes.map fun b => .int b.toNat)),
    ("encoding", .str source.encoding.key)]

namespace Outcome

def toJson {ε α : Type} (left : ε → Json) (right : α → Json) :
    Except ε α → Json
  | .error e => .obj [("left", left e)]
  | .ok a => .obj [("right", right a)]

def ofJson {ε α : Type} (left : Json → Decoded ε) (right : Json → Decoded α) :
    Json → Decoded (Except ε α)
  | .obj [("left", value)] => (left value).map .error
  | .obj [("right", value)] => (right value).map .ok
  | .obj [(name, _)] => .error (.unknownVariant name ["left", "right"])
  | _ => .error .mismatch

end Outcome

/-! ## Errors and verdicts -/

def SyntaxError.members (e : SyntaxError) : List (String × Json) :=
  [("identification", .str e.identification), ("line", .int e.line),
    ("column", .int e.column),
    ("message", .str e.message)]

def SyntaxError.toJson (e : SyntaxError) : Json :=
  .obj e.members

def PrintError.members : PrintError → List (String × Json)
  | unsupported kind => [("error", .str "unsupported"), ("kind", .str kind)]
  | invalidEscape sequence name =>
    [("error", .str "invalid_escape"), ("sequence", .str sequence),
      ("encoding", .str name)]
  | encoding name detail =>
    [("error", .str "encoding"), ("encoding", .str name),
      ("detail", .str detail)]
  | other message => [("error", .str "other"), ("message", .str message)]

def PrintError.toJson (e : PrintError) : Json :=
  .obj e.members

def StageError.toJson : StageError → Json
  | parsing e => .obj (("stage", .str "original_syntax") :: e.members)
  | printing e => .obj (("stage", .str "generate") :: e.members)
  | reparsing e => .obj (("stage", .str "generated_syntax") :: e.members)

def Exemption.name : Exemption → String
  | invalidSource => "original_syntax_error"
  | encodingGap => "generated_encoding"

def Verdict.toJson : Verdict → Json
  | equivalent => .obj [("verdict", .str "equivalent")]
  | exempt e => .obj [("verdict", .str "exempt"), ("exemption", .str e.name)]
  | mismatch => .obj [("verdict", .str "mismatch")]

def Defect.toJson (d : Defect) : Json :=
  .obj [("identification", .str d.identification),
    ("digest", .ofOption (d.digest.map .str)),
    ("report", .str d.report)]

/-! ## Reading errors -/

structure SyntaxErrorFields where
  identification : Option String := none
  line : Option Nat := none
  column : Option Nat := none
  message : Option String := none

def SyntaxErrorFields.read (fields : SyntaxErrorFields) :
    List (String × Json) → Decoded SyntaxError
  | [] => do
    return ⟨← .required "identification" fields.identification,
      ← .required "line" fields.line,
      ← .required "column" fields.column, ← .required "message" fields.message⟩
  | ("identification", value) :: rest => do
    let identification ← Decoded.once fields.identification value.decodeText
    { fields with identification }.read rest
  | ("line", value) :: rest => do
    let line ← Decoded.once fields.line value.decodeNat
    { fields with line }.read rest
  | ("column", value) :: rest => do
    let column ← Decoded.once fields.column value.decodeNat
    { fields with column }.read rest
  | ("message", value) :: rest => do
    let message ← Decoded.once fields.message value.decodeText
    { fields with message }.read rest
  | _ :: rest => fields.read rest

def SyntaxError.ofJson (json : Json) : Decoded SyntaxError := do
  SyntaxErrorFields.read {} (← .ofOption json.members?)

/-- The values of the text fields among `names`, in the order of the names. -/
def readTextFields (names : List String) (members : List (String × Json)) :
    Decoded (List String) := do
  let named := members.filter fun m => m.1 ∈ names
  let texts ← named.mapM fun m => do return (m.1, ← m.2.decodeText)
  names.mapM fun name => .required name ((texts.find? (·.1 == name)).map (·.2))

def printErrorNames : List String :=
  ["unsupported", "invalid_escape", "encoding", "other"]

/-- The print error of a cause with the members beside it. -/
def PrintError.ofMembers (cause : String) (members : List (String × Json)) :
    Decoded PrintError :=
  match cause with
  | "unsupported" => do
    match ← readTextFields ["kind"] members with
    | [kind] => return .unsupported kind
    | _ => throw .mismatch
  | "invalid_escape" => do
    match ← readTextFields ["sequence", "encoding"] members with
    | [sequence, name] => return .invalidEscape sequence name
    | _ => throw .mismatch
  | "encoding" => do
    match ← readTextFields ["encoding", "detail"] members with
    | [name, detail] => return .encoding name detail
    | _ => throw .mismatch
  | "other" => do
    match ← readTextFields ["message"] members with
    | [message] => return .other message
    | _ => throw .mismatch
  | name => throw (.unknownVariant name printErrorNames)

/-- The value of the member that names a cause, and the members beside it. -/
def takeTag (tag : String) (json : Json) :
    Decoded (Json × List (String × Json)) := do
  let members ← Decoded.ofOption json.members?
  let value ← Decoded.required tag (Json.lookup? tag members)
  return (value, members.filter fun m => m.1 != tag)

def PrintError.ofJson (json : Json) : Decoded PrintError := do
  let (tag, members) ← takeTag "error" json
  PrintError.ofMembers (← tag.decodeText) members

/-- A cause inside the error of a stage may also be given by its number. -/
def nestedCause : Json → Decoded String
  | .str name => .ok name
  | .int i => .ofOption (if 0 ≤ i then printErrorNames[i.toNat]? else none)
  | _ => .error .mismatch

def StageError.ofJson (json : Json) : Decoded StageError := do
  let (tag, members) ← takeTag "stage" json
  match ← tag.decodeText with
  | "original_syntax" => return .parsing (← SyntaxErrorFields.read {} members)
  | "generate" =>
    let (cause, members) ← takeTag "error" (.obj members)
    return .printing (← PrintError.ofMembers (← nestedCause cause) members)
  | "generated_syntax" =>
      return .reparsing (← SyntaxErrorFields.read {} members)
  | name =>
      throw (.unknownVariant name
        ["original_syntax", "generate", "generated_syntax"])

end Reparse
