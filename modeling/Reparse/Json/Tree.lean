import Reparse.Json.Decode
import Reparse.Text.Digits
import Reparse.Tree.Basic

/-!
# Trees as JSON

A node is a record of its kind, its children and its place; an atom is an
object with one member, the name of its class, except for `"nil"`.  A child is
read as a node where that is possible, and otherwise as an atom.  A place or a
list of comments that is absent is left out.
-/

namespace Reparse

/-! ## Writing -/

def Span.toJson (span : Span) : Json :=
  .obj [("begin", .int span.start), ("end", .int span.stop),
    ("line", .int span.line)]

def Atom.toJson : Atom → Json
  | .nil => .str "nil"
  | .bool value => .obj [("bool", .bool value)]
  | .int value => .obj [("int", .int value.toInt)]
  | .float value =>
      .obj [("float", if value.isFinite then .float value else .null)]
  | .str text => .obj [("str", .str text)]
  | .bytes data => .obj [("bytes", .arr (data.map fun b => .int b.toNat))]
  | .sym name => .obj [("sym", .str name)]

def spanMember (span : Option Span) : List (String × Json) :=
  span.toList.map fun span => ("span", span.toJson)

mutual

def Node.toJson : Node → Json
  | .mk kind children span =>
    .obj
      ([("kind", .str kind), ("children", .arr (Child.toJsonList children))] ++
        spanMember span)

def Child.toJson : Child → Json
  | .node n => n.toJson
  | .atom a => a.toJson

def Child.toJsonList : List Child → List Json
  | [] => []
  | c :: cs => c.toJson :: Child.toJsonList cs

end

def Comment.toJson (comment : Comment) : Json :=
  .obj (("text", .str comment.text) :: spanMember comment.span)

def Tree.toJson (tree : Tree) : Json :=
  .obj (("root", .ofOption (tree.root.map Node.toJson)) ::
    tree.comments.toList.map fun comments =>
      ("comments", .arr (comments.map Comment.toJson)))

/-! ## Reading -/

structure SpanFields where
  start : Option Nat := none
  stop : Option Nat := none
  line : Option Nat := none

def SpanFields.read (fields : SpanFields) : List (String × Json) → Decoded Span
  | [] => do
    return ⟨← .required "begin" fields.start, ← .required "end" fields.stop,
      ← .required "line" fields.line⟩
  | ("begin", value) :: rest => do
    let start ← Decoded.once fields.start value.decodeNat
    { fields with start }.read rest
  | ("end", value) :: rest => do
    let stop ← Decoded.once fields.stop value.decodeNat
    { fields with stop }.read rest
  | ("line", value) :: rest => do
    let line ← Decoded.once fields.line value.decodeNat
    { fields with line }.read rest
  | _ :: rest => fields.read rest

def Span.ofJson : Json → Decoded Span
  | .obj members => SpanFields.read {} members
  | .arr [start, stop, line] => do
    return ⟨← start.decodeNat, ← stop.decodeNat, ← line.decodeNat⟩
  | _ => .error .mismatch

def Binary64.ofJson : Json → Decoded Binary64
  | .float value => .ok value
  | .int value => .ok (.ofRatio (value < 0) value.natAbs 1)
  | _ => .error .mismatch

def decodeByte (json : Json) : Decoded UInt8 :=
  .ofOption (json.nat?.bind fun n =>
    if n < 256 then some (UInt8.ofNat n) else none)

def decodeInt64 (json : Json) : Decoded Int64 :=
  .ofOption (json.int?.bind fun i =>
    if Text.inInt64 i then some (Int64.ofInt i) else none)

/-- An atom.  The class of `nil` may also be the name of a member whose value
is `null`. -/
def Atom.ofJson : Json → Decoded Atom
  | .str "nil" => .ok .nil
  | .obj [("nil", .null)] => .ok .nil
  | .obj [("bool", value)] => value.decodeBool.map .bool
  | .obj [("int", value)] => (decodeInt64 value).map .int
  | .obj [("float", value)] => (Binary64.ofJson value).map .float
  | .obj [("str", value)] => value.decodeText.map .str
  | .obj [("bytes", value)] => (value.decodeList decodeByte).map .bytes
  | .obj [("sym", value)] => value.decodeText.map .sym
  | _ => .error .mismatch

/-- The fields of a node read so far. -/
structure NodeFields where
  kind : Option String := none
  children : Option (List Child) := none
  span : Option (Option Span) := none

def NodeFields.node (fields : NodeFields) : Decoded Node := do
  return .mk (← .required "kind" fields.kind) (fields.children.getD [])
    (fields.span.getD none)

mutual

def Node.ofJson : Json → Decoded Node
  | .obj members => Node.ofMembers {} members
  | .arr [kind] => do return .mk (← kind.decodeText) [] none
  | .arr [kind, .arr children] => do
    return .mk (← kind.decodeText) (← Child.ofJsonList children) none
  | .arr (kind :: .arr children :: span :: rest) => do
    let node := Node.mk (← kind.decodeText) (← Child.ofJsonList children)
      (← span.decodeOption Span.ofJson)
    Decoded.noMore rest
    return node
  | _ => .error .mismatch

/-- The node with the fields read so far and those of the members. -/
def Node.ofMembers (fields : NodeFields) : List (String × Json) → Decoded Node
  | [] => fields.node
  | ("kind", value) :: rest =>
    match Decoded.once fields.kind value.decodeText with
    | .error e => .error e
    | .ok kind => Node.ofMembers { fields with kind } rest
  | ("children", .arr items) :: rest =>
    match Decoded.once fields.children (Child.ofJsonList items) with
    | .error e => .error e
    | .ok children => Node.ofMembers { fields with children } rest
  | ("children", _) :: _ => .error .mismatch
  | ("span", value) :: rest =>
    match Decoded.once fields.span (value.decodeOption Span.ofJson) with
    | .error e => .error e
    | .ok span => Node.ofMembers { fields with span } rest
  | _ :: rest => Node.ofMembers fields rest

def Child.ofJson (json : Json) : Decoded Child :=
  match Node.ofJson json with
  | .ok node => .ok (.node node)
  | .error _ =>
    match Atom.ofJson json with
    | .ok atom => .ok (.atom atom)
    | .error _ => .error .mismatch

def Child.ofJsonList : List Json → Decoded (List Child)
  | [] => .ok []
  | item :: items =>
    match Child.ofJson item with
    | .error e => .error e
    | .ok child =>
      match Child.ofJsonList items with
      | .error e => .error e
      | .ok children => .ok (child :: children)

end

structure CommentFields where
  text : Option String := none
  span : Option (Option Span) := none

def CommentFields.read (fields : CommentFields) :
    List (String × Json) → Decoded Comment
  | [] => do return ⟨← .required "text" fields.text, fields.span.getD none⟩
  | ("text", value) :: rest => do
    let text ← Decoded.once fields.text value.decodeText
    { fields with text }.read rest
  | ("span", value) :: rest => do
    let span ← Decoded.once fields.span (value.decodeOption Span.ofJson)
    { fields with span }.read rest
  | _ :: rest => fields.read rest

def Comment.ofJson : Json → Decoded Comment
  | .obj members => CommentFields.read {} members
  | .arr [text] => do return ⟨← text.decodeText, none⟩
  | .arr (text :: span :: rest) => do
    let comment := ⟨← text.decodeText, ← span.decodeOption Span.ofJson⟩
    Decoded.noMore rest
    return comment
  | _ => .error .mismatch

structure TreeFields where
  root : Option (Option Node) := none
  comments : Option (Option (List Comment)) := none

def decodeComments (json : Json) : Decoded (Option (List Comment)) :=
  json.decodeOption (Json.decodeList Comment.ofJson)

def TreeFields.read (fields : TreeFields) : List (String × Json) → Decoded Tree
  | [] => .ok ⟨fields.root.getD none, fields.comments.getD none⟩
  | ("root", value) :: rest => do
    let root ← Decoded.once fields.root (value.decodeOption Node.ofJson)
    { fields with root }.read rest
  | ("comments", value) :: rest => do
    let comments ← Decoded.once fields.comments (decodeComments value)
    { fields with comments }.read rest
  | _ :: rest => fields.read rest

def Tree.ofJson : Json → Decoded Tree
  | .obj members => TreeFields.read {} members
  | .arr [root] => do return ⟨← root.decodeOption Node.ofJson, none⟩
  | .arr (root :: comments :: rest) => do
    let tree := ⟨← root.decodeOption Node.ofJson, ← decodeComments comments⟩
    Decoded.noMore rest
    return tree
  | _ => .error .mismatch

end Reparse
