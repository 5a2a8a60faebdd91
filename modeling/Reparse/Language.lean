import Reparse.Source.Basic
import Reparse.Text.Quoted
import Reparse.Tree.Basic

/-!
# Languages

What a trial needs to know of a language: a parser from sources to trees and a
printer from trees to text, with the errors that each may report.
-/

namespace Reparse

/-- A parser rejected its input at a line and a column, both counted from 1. -/
structure SyntaxError where
  identification : String
  line : Nat
  column : Nat
  message : String
  deriving DecidableEq

def SyntaxError.toString (e : SyntaxError) : String :=
  s!"{e.identification}:{e.line}:{e.column}: {e.message}"

inductive PrintError where
  /-- A node that the language does not have. -/
  | unsupported (kind : String)
  /-- A literal with an escape sequence that has no spelling in the
  encoding. -/
  | invalidEscape (sequence encoding : String)
  /-- A text with a character that the encoding does not represent. -/
  | encoding (encoding detail : String)
  | other (message : String)
  deriving DecidableEq

namespace PrintError

def message : PrintError → String
  | unsupported kind => s!"unsupported node: {kind}"
  | invalidEscape sequence name =>
    let shown := String.ofList (Text.quoted sequence.toList)
    s!"invalid escape sequence {shown} for {name} source"
  | encoding name detail =>
      s!"generated source is not representable as {name}: {detail}"
  | other text => s!"generation failed: {text}"

/-- Whether the error comes from escapes or encodings, which are gaps of a
representation and not defects of a printer. -/
def isEncodingGap : PrintError → Bool
  | invalidEscape _ _ => true
  | encoding _ _ => true
  | _ => false

def unrepresentable (e : Encoding) (c : Char) : PrintError :=
  encoding e.name (Encoding.codePointName c ++ " has no mapping")

end PrintError

/-- A parser of some version of a language.  The second argument of `parse`
names the source. -/
structure Parser where
  version : String
  parse : Source → String → Except SyntaxError Tree

structure Printer where
  print : Tree → Except PrintError String

end Reparse
