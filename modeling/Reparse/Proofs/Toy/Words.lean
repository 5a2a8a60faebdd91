import Reparse.Toy.Printer
import Mathlib.Tactic

/-!
# The words of a printed expression

What an expression is printed as, one step above its characters: the tokens
with their parentheses, the levels that reading them opens, and the expression
that they read as.  That is another one only where a variable was never
assigned or a sequence has one item, which the parser produces in neither case.
-/

namespace Reparse.Toy

def Operator.token : Operator → TokenKind
  | plus => .plus
  | minus => .minus
  | times => .star
  | divide => .slash

@[simp] theorem Operator.ofToken?_token (op : Operator) :
    ofToken? op.token = some op := by
  cases op <;> rfl

def encloseWords (words : List TokenKind) : List TokenKind :=
  .leftParen :: (words ++ [.rightParen])

namespace Expr

def level : Expr → Nat
  | int value => if value < 0 then unaryLevel else atomLevel
  | float value => if value.isNegative then unaryLevel else atomLevel
  | assign _ _ => assignLevel
  | negate _ => unaryLevel
  | infixed _ op _ => op.tier.level
  | _ => atomLevel

mutual

/-- The names an expression assigns, the last one first. -/
def assigned : Expr → List String
  | assign name value => value.assigned ++ [name]
  | sequence items => assignedList items
  | negate operand => operand.assigned
  | infixed left _ right => right.assigned ++ left.assigned
  | call _ args => assignedList args
  | _ => []

def assignedList : List Expr → List String
  | [] => []
  | e :: es => assignedList es ++ e.assigned

end

def needsParens (operand : Expr) : Bool :=
  operand.isNumeral || operand.level < unaryLevel

/-- The words, in parentheses if they are needed. -/
def wrapWords (parens : Bool) (words : List TokenKind) : List TokenKind :=
  if parens then encloseWords words else words

mutual

/-- The tokens of an expression after the names in `locals` have been
assigned. -/
def words (locals : List String) : Expr → List TokenKind
  | int value => if value < 0 then [.minus, .int (-value)] else [.int value]
  | float value =>
      if value.isNegative then [.minus, .float value.neg] else [.float value]
  | str text => [.str text]
  | bytes data => [.bytes data]
  | sym name => [.sym name]
  | nil => [.nil]
  | bool value => [.bool value]
  | var name => [.ident name]
  | assign name value => .ident name :: .assign :: value.words (name :: locals)
  | sequence items =>
      encloseWords ([.separator].intercalate (wordsList locals items))
  | negate operand =>
      .minus :: wrapWords operand.needsParens (operand.words locals)
  | infixed left op right =>
    wrapWords (left.level < op.tier.level) (left.words locals) ++
      op.token :: wrapWords (right.level < op.tier.level + 1)
        (right.words (left.assigned ++ locals))
  | call name args =>
    .ident name ::
      if args.isEmpty && name ∉ locals then []
      else encloseWords ([.comma].intercalate (wordsList locals args))
  | foreign _ => []

def wordsList (locals : List String) : List Expr → List (List TokenKind)
  | [] => []
  | e :: es => e.words locals :: wordsList (e.assigned ++ locals) es

end

/-! ## Nesting -/

/-- The operators of a tier that stand on the left spine. -/
def spine (tier : Tier) : Expr → Nat
  | infixed left op _ => if op.tier = tier then left.spine tier + 1 else 0
  | _ => 0

/-- A pair of parentheses opens a level. -/
def wrapNesting (parens : Bool) (nesting : Nat) : Nat :=
  if parens then nesting + 1 else nesting

mutual

/-- The levels that reading the words of an expression opens below the
statement they stand in.  The right operand of a chain stands below all
operators of the chain up to its own. -/
def nesting : Expr → Nat
  | assign _ value => value.nesting + 1
  | sequence items => nestingList items
  | negate operand => wrapNesting operand.needsParens operand.nesting + 1
  | infixed left op right =>
    max (wrapNesting (left.level < op.tier.level) left.nesting)
      (left.spine op.tier + 1 +
        wrapNesting (right.level < op.tier.level + 1) right.nesting)
  | call _ args => nestingList args
  | _ => 0

def nestingList : List Expr → Nat
  | [] => 0
  | e :: es => max (e.nesting + 1) (nestingList es)

end

/-! ## Meaning -/

/-- The expression of a list of statements in parentheses. -/
def group : List Expr → Expr
  | [e] => e
  | es => sequence es

mutual

/-- The expression that the words of an expression read as. -/
def resolve (locals : List String) : Expr → Expr
  | var name => if name ∈ locals then var name else call name []
  | assign name value => assign name (value.resolve (name :: locals))
  | sequence items => group (resolveList locals items)
  | negate operand => negate (operand.resolve locals)
  | infixed left op right =>
    infixed (left.resolve locals) op (right.resolve (left.assigned ++ locals))
  | call name args => call name (resolveList locals args)
  | e => e

def resolveList (locals : List String) : List Expr → List Expr
  | [] => []
  | e :: es => e.resolve locals :: resolveList (e.assigned ++ locals) es

end

mutual

def toNode : Expr → Node
  | int value => .bare "int" [.atom (.int value)]
  | float value => .bare "float" [.atom (.float value)]
  | str text => .bare "str" [.atom (.str text)]
  | bytes data => .bare "str" [.atom (.bytes data)]
  | sym name => .bare "sym" [.atom (.sym name)]
  | nil => .bare "nil" []
  | bool true => .bare "true" []
  | bool false => .bare "false" []
  | var name => .bare "lvar" [.atom (.sym name)]
  | assign name value => .bare "lvasgn" [.atom (.sym name), .node value.toNode]
  | sequence items => .bare "begin" (toNodes items)
  | negate operand =>
      .bare "send" [.node operand.toNode, .atom (.sym negationSymbol)]
  | infixed left op right =>
    .bare "send" [.node left.toNode, .atom (.sym op.symbol),
      .node right.toNode]
  | call name args =>
      .bare "send" (.atom .nil :: .atom (.sym name) :: toNodes args)
  | foreign node => node.withoutSpans

def toNodes : List Expr → List Child
  | [] => []
  | e :: es => .node e.toNode :: toNodes es

end

/-! ## Expressions of nodes -/

mutual

/-- No part of the expression is foreign. -/
def Native : Expr → Prop
  | assign _ value => value.Native
  | sequence items => NativeList items
  | negate operand => operand.Native
  | infixed left _ right => left.Native ∧ right.Native
  | call _ args => NativeList args
  | foreign _ => False
  | _ => True

def NativeList : List Expr → Prop
  | [] => True
  | e :: es => e.Native ∧ NativeList es

end

end Expr
end Reparse.Toy
