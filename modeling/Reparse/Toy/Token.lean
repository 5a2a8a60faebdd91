import Reparse.Text.Quoted
import Reparse.Tree.Notation

/-!
# Tokens of the toy language

The words of the language, the place where each stands, and the faults that
reading them or a program made of them can meet.
-/

namespace Reparse.Toy

open Text

/-- What a token is.  A string literal whose byte escapes form no text is held
as bytes. -/
inductive TokenKind where
  | int (value : Int64)
  | float (value : Binary64)
  | str (text : String)
  | bytes (data : List UInt8)
  | sym (name : String)
  | ident (name : String)
  | nil
  | bool (value : Bool)
  /-- The word for the number of the line it stands on. -/
  | lineWord
  /-- The word for the name of the source. -/
  | fileWord
  | leftParen
  | rightParen
  | comma
  | plus
  | minus
  | star
  | slash
  | assign
  | separator
  deriving DecidableEq

/-- A position: characters before it, and its line and column counted from
1. -/
structure Place where
  offset : Nat
  line : Nat
  column : Nat
  deriving DecidableEq

namespace Place

def start : Place := ⟨0, 1, 1⟩

/-- The place `n` characters further on the same line. -/
def skip (p : Place) (n : Nat) : Place :=
  ⟨p.offset + n, p.line, p.column + n⟩

def newLine (p : Place) : Place :=
  ⟨p.offset + 1, p.line + 1, 1⟩

end Place

/-- A token between its first character and the offset after its last. -/
structure Token where
  kind : TokenKind
  start : Place
  stop : Nat
  deriving DecidableEq

/-- The tokens and comments of a text, with the place where it ends. -/
structure Lexed where
  tokens : List Token
  comments : List Comment
  stop : Place

/-! ## Faults -/

/-- The deepest nesting of a program.  Groups, call arguments, assignments,
unary minus and each operator in a chain count as one level. -/
def maxNesting : Nat := 256

inductive Cause where
  | unexpectedCharacter (c : Char)
  | malformedSymbol
  | integerTooLarge (text : String)
  | unterminatedString
  | unterminatedEscape
  | unknownEscape (c : Char)
  | invalidByteEscape (text : String)
  | unicodeBraceExpected
  | unterminatedUnicodeEscape
  | invalidUnicodeEscape (text : String)
  | nestingTooDeep
  /-- A token that cannot stand where it does; `none` for the end of the
  text. -/
  | unexpectedToken (found : Option TokenKind)
  /-- A token in place of what separates or closes arguments. -/
  | argumentEndExpected (found : Option TokenKind)
  deriving DecidableEq

/-- A cause with the line and the column where it was found. -/
structure Fault where
  line : Nat
  column : Nat
  cause : Cause
  deriving DecidableEq

def Place.fault (p : Place) (cause : Cause) : Fault :=
  ⟨p.line, p.column, cause⟩

/-- A token as messages show it. -/
def TokenKind.shown : TokenKind → String
  | int value => "Int(" ++ String.ofList (decimalInt value.toInt) ++ ")"
  | float value => "Float(" ++ String.ofList value.literal ++ ")"
  | str text => "Str(" ++ String.ofList (quoted text.toList) ++ ")"
  | bytes data =>
    let parts := data.map fun b => String.ofList (decimal b.toNat)
    "Bytes([" ++ String.intercalate ", " parts ++ "])"
  | sym name => "Sym(" ++ String.ofList (quoted name.toList) ++ ")"
  | ident name => "Ident(" ++ String.ofList (quoted name.toList) ++ ")"
  | nil => "Nil"
  | bool true => "True"
  | bool false => "False"
  | lineWord => "Line"
  | fileWord => "File"
  | leftParen => "LParen"
  | rightParen => "RParen"
  | comma => "Comma"
  | plus => "Plus"
  | minus => "Minus"
  | star => "Star"
  | slash => "Slash"
  | assign => "Assign"
  | separator => "Sep"

/-- A token, or the end of the text, as messages show it. -/
def shownToken : Option TokenKind → String
  | some kind => kind.shown
  | none => "Eof"

def Cause.message : Cause → String
  | unexpectedCharacter c =>
      "unexpected character " ++ String.ofList (quotedChar c)
  | malformedSymbol => "malformed symbol"
  | integerTooLarge text =>
      s!"invalid integer {text}: number too large to fit in target type"
  | unterminatedString => "unterminated string"
  | unterminatedEscape => "unterminated escape"
  | unknownEscape c => s!"unknown escape \\{c}"
  | invalidByteEscape text => s!"invalid byte escape \\x{text}"
  | unicodeBraceExpected => "expected `\x7b` after \\u"
  | unterminatedUnicodeEscape => "unterminated unicode escape"
  | invalidUnicodeEscape text => s!"invalid unicode escape \\u\x7b{text}\x7d"
  | nestingTooDeep => s!"nesting deeper than {maxNesting} levels"
  | unexpectedToken found => "unexpected token " ++ shownToken found
  | argumentEndExpected found =>
      "expected `,` or `)`, got " ++ shownToken found

end Reparse.Toy
