import Reparse.Toy.Lexer
import Reparse.Toy.Operator
import Reparse.Tree.Notation

/-!
# Expressions

The programs of the language without their spelling.  `Expr.ofNode` reads a
node as an expression; a node of any other shape, or with a name that cannot be
spelled, becomes `foreign`, so that printing can report it where it stands.
-/

namespace Reparse.Toy

inductive Expr where
  | int (value : Int64)
  | float (value : Binary64)
  | str (text : String)
  | bytes (data : List UInt8)
  | sym (name : String)
  | nil
  | bool (value : Bool)
  | var (name : String)
  | assign (name : String) (value : Expr)
  | sequence (items : List Expr)
  | negate (operand : Expr)
  | infixed (left : Expr) (op : Operator) (right : Expr)
  | call (name : String) (args : List Expr)
  | foreign (node : Node)

/-- Whether a word is a name, which no reserved word is. -/
def isName (name : String) : Bool :=
  match name.toList with
  | [] => false
  | c :: r =>
      isWordStart c && r.all isWordChar && wordToken (c :: r) == .ident name

/-- Whether a symbol can be spelled: as a name or as an operator. -/
def isSymbol (name : String) : Bool :=
  isName name || (Operator.ofSymbol? name).isSome || name == negationSymbol

namespace Expr

mutual

def ofNode (node : Node) : Expr :=
  match node with
  | .mk "int" [.atom (.int value)] _ => .int value
  | .mk "float" [.atom (.float value)] _ => .float value
  | .mk "str" [.atom (.str text)] _ => .str text
  | .mk "str" [.atom (.bytes data)] _ => .bytes data
  | .mk "sym" [.atom (.sym name)] _ =>
      if isSymbol name then .sym name else .foreign node
  | .mk "nil" [] _ => .nil
  | .mk "true" [] _ => .bool true
  | .mk "false" [] _ => .bool false
  | .mk "lvar" [.atom (.sym name)] _ =>
      if isName name then .var name else .foreign node
  | .mk "lvasgn" [.atom (.sym name), .node value] _ =>
    if isName name then .assign name (ofNode value) else .foreign node
  | .mk "begin" children _ => .sequence (ofChildren node children)
  | .mk "send" [.node operand, .atom (.sym op)] _ =>
    if op = negationSymbol then .negate (ofNode operand) else .foreign node
  | .mk "send" [.node left, .atom (.sym op), .node right] _ =>
    match Operator.ofSymbol? op with
    | some op => .infixed (ofNode left) op (ofNode right)
    | none => .foreign node
  | .mk "send" (.atom .nil :: .atom (.sym name) :: args) _ =>
    if isName name then .call name (ofChildren node args) else .foreign node
  | node => .foreign node

/-- The children of a node as expressions; in the place of an atom stands the
node itself. -/
def ofChildren (node : Node) (children : List Child) : List Expr :=
  match children with
  | [] => []
  | .node child :: rest => ofNode child :: ofChildren node rest
  | .atom _ :: rest => .foreign node :: ofChildren node rest

end

end Expr
end Reparse.Toy
