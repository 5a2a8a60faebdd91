import Reparse.Language
import Reparse.Text.Utf8
import Reparse.Toy.Expr

/-!
# Printing the toy language

Every expression is written with its level, and an operand gets parentheses
when its level is below the one its place asks for.  The names assigned so far
are kept in the order of the text, because a call without arguments must keep
its parentheses after an assignment to its name.

Two literals have no spelling: a number that is not finite, and bytes that are
not text.
-/

namespace Reparse.Toy

open Text

/-- How tightly a text binds: assignments at 0, then sums, products, unary
expressions and atoms. -/
abbrev Level := Nat

def assignLevel : Level := 0
def unaryLevel : Level := 3
def atomLevel : Level := 4

def Tier.level : Tier → Level
  | .sum => 1
  | .product => 2

structure Written where
  text : List Char
  level : Level

def parenthesize (text : List Char) : List Char :=
  '(' :: text ++ [')']

/-- The text, in parentheses when it binds less tightly than `least`. -/
def Written.atLeast (least : Level) (w : Written) : List Char :=
  if w.level < least then parenthesize w.text else w.text

/-- A character as it stands inside a string literal. -/
def literalChar (c : Char) : List Char :=
  if c = '\x00' then ['\\', '0'] else escapeChar c

def stringLiteral (text : List Char) : List Char :=
  '"' :: text.flatMap literalChar ++ ['"']

/-- The error for a literal whose bytes are not text; it shows the first byte
of the first ill-formed run. -/
def bytesError (data : List UInt8) : PrintError :=
  let sequence := ((Utf8.fromIllFormed data).take 1).flatMap fun b =>
    '\\' :: 'x' :: hexByte b
  .invalidEscape (String.ofList sequence) Encoding.utf8.name

def notFiniteError (x : Binary64) : PrintError :=
  .other s!"non-finite float {String.ofList x.literal} has no literal form"

/-- The literal of a number with the level of its sign. -/
def numeral (negative : Bool) (text : List Char) : Written :=
  ⟨text, if negative then unaryLevel else atomLevel⟩

/-- The texts with `sep` between them. -/
def joinWith (sep : List Char) (texts : List (List Char)) : List Char :=
  sep.intercalate texts

namespace Expr

/-- Whether the expression is a numeric literal, which a minus would become
part of. -/
def isNumeral : Expr → Bool
  | int _ => true
  | float _ => true
  | _ => false

mutual

/-- The text of an expression after the names in `locals` have been assigned,
and the names assigned after it. -/
def write (locals : List String) :
    Expr → Except PrintError (Written × List String)
  | int value => .ok (numeral (value < 0) (decimalInt value.toInt), locals)
  | float value =>
    if value.isFinite then .ok (numeral value.isNegative value.literal, locals)
    else .error (notFiniteError value)
  | str text => .ok (⟨stringLiteral text.toList, atomLevel⟩, locals)
  | bytes data => .error (bytesError data)
  | sym name => .ok (⟨':' :: name.toList, atomLevel⟩, locals)
  | nil => .ok (⟨"nil".toList, atomLevel⟩, locals)
  | bool true => .ok (⟨"true".toList, atomLevel⟩, locals)
  | bool false => .ok (⟨"false".toList, atomLevel⟩, locals)
  | var name => .ok (⟨name.toList, atomLevel⟩, locals)
  | assign name value =>
    match value.write (name :: locals) with
    | .error e => .error e
    | .ok (w, locals) =>
        .ok (⟨name.toList ++ " = ".toList ++ w.text, assignLevel⟩, locals)
  | sequence items =>
    match writeList locals items with
    | .error e => .error e
    | .ok (texts, locals) =>
        .ok (⟨parenthesize (joinWith "; ".toList texts), atomLevel⟩, locals)
  | negate operand =>
    match operand.write locals with
    | .error e => .error e
    | .ok (w, locals) =>
      let text :=
        if operand.isNumeral then parenthesize w.text else w.atLeast unaryLevel
      .ok (⟨'-' :: text, unaryLevel⟩, locals)
  | infixed left op right =>
    match left.write locals with
    | .error e => .error e
    | .ok (l, locals) =>
      match right.write locals with
      | .error e => .error e
      | .ok (r, locals) =>
        let level := op.tier.level
        .ok (⟨l.atLeast level ++ [' ', op.sign, ' '] ++ r.atLeast (level + 1),
          level⟩, locals)
  | call name args =>
    match writeList locals args with
    | .error e => .error e
    | .ok (texts, locals) =>
      let list := if texts.isEmpty && name ∉ locals then []
        else parenthesize (joinWith ", ".toList texts)
      .ok (⟨name.toList ++ list, atomLevel⟩, locals)
  | foreign node => .error (.unsupported node.toString)

def writeList (locals : List String) :
    List Expr → Except PrintError (List (List Char) × List String)
  | [] => .ok ([], locals)
  | e :: es =>
    match e.write locals with
    | .error e => .error e
    | .ok (w, locals) =>
      match writeList locals es with
      | .error e => .error e
      | .ok (texts, locals) => .ok (w.text :: texts, locals)

end

end Expr

/-! ## Programs -/

/-- The statements of a program: those of a sequence of two or more, and
otherwise the root alone. -/
def programOf (root : Option Node) : List Expr :=
  match root with
  | none => []
  | some root =>
    match Expr.ofNode root with
    | .sequence (first :: second :: more) => first :: second :: more
    | e => [e]

/-- The lines of a tree's statements, then of its comments. -/
def programLines (tree : Tree) : Except PrintError (List (List Char)) :=
  match Expr.writeList [] (programOf tree.root) with
  | .error e => .error e
  | .ok (lines, _) =>
      .ok (lines ++ (tree.comments.getD []).map fun c => '#' :: c.text.toList)

def print (tree : Tree) : Except PrintError String :=
  match programLines tree with
  | .error e => .error e
  | .ok lines => .ok (String.ofList (joinWith ['\n'] lines))

def printer : Printer :=
  ⟨print⟩

end Reparse.Toy
