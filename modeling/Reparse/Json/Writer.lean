import Reparse.Binary64.Notation
import Reparse.Json.Basic
import Reparse.Text.Blank

/-!
# Writing JSON

Two forms: a compact one without blanks, and an indented one with a line for
each member and element. A number that is not finite is written as `null`.
-/

namespace Reparse.Json

open Text

/-- Numbers are written positionally from `0.00001` up to, but not including,
`1e16`; of two equally near decimals the one with an even last digit is
taken. -/
def numberLayout : Binary64.Layout := ⟨-5, 15, true, .toEven⟩

/-- A character as it stands inside a string. -/
def stringChar (c : Char) : List Char :=
  if c = '"' ∨ c = '\\' then ['\\', c]
  else if c = '\x08' then ['\\', 'b']
  else if c = '\x0c' then ['\\', 'f']
  else if c = '\n' then ['\\', 'n']
  else if c = '\r' then ['\\', 'r']
  else if c = '\t' then ['\\', 't']
  else if c.toNat < 0x20 then '\\' :: 'u' :: padStart 4 '0' (hex c.toNat)
  else [c]

def writeString (text : String) : List Char :=
  '"' :: text.toList.flatMap stringChar ++ ['"']

/-- A value that is neither an array nor an object. -/
def writeScalar : Json → List Char
  | bool true => "true".toList
  | bool false => "false".toList
  | int value => decimalInt value
  | float value =>
      if value.isFinite then value.write numberLayout else "null".toList
  | str text => writeString text
  | _ => "null".toList

/-! ## The compact form -/

mutual

def write : Json → List Char
  | arr items => '[' :: writeItems items ++ [']']
  | obj members => '{' :: writeMembers members ++ ['}']
  | null => writeScalar null
  | bool value => writeScalar (bool value)
  | int value => writeScalar (int value)
  | float value => writeScalar (float value)
  | str text => writeScalar (str text)

def writeItems : List Json → List Char
  | [] => []
  | [item] => item.write
  | item :: items => item.write ++ ',' :: writeItems items

def writeMembers : List (String × Json) → List Char
  | [] => []
  | [(name, value)] => writeString name ++ ':' :: value.write
  | (name, value) :: rest =>
      writeString name ++ ':' :: value.write ++ ',' :: writeMembers rest

end

def toString (json : Json) : String :=
  String.ofList json.write

/-! ## The indented form -/

/-- A new line at a depth. -/
def newLine (depth : Nat) : List Char :=
  '\n' :: List.replicate (2 * depth) ' '

mutual

def pretty (depth : Nat) : Json → List Char
  | arr [] => ['[', ']']
  | arr (item :: items) =>
    '[' :: newLine (depth + 1) ++ item.pretty (depth + 1) ++
      prettyItems (depth + 1) items ++
      newLine depth ++ [']']
  | obj [] => ['{', '}']
  | obj ((name, value) :: rest) =>
    '{' :: newLine (depth + 1) ++ writeString name ++
      ':' :: ' ' :: value.pretty (depth + 1) ++
      prettyMembers (depth + 1) rest ++ newLine depth ++ ['}']
  | null => writeScalar null
  | bool value => writeScalar (bool value)
  | int value => writeScalar (int value)
  | float value => writeScalar (float value)
  | str text => writeScalar (str text)

/-- Each element after a comma, on a line of its own. -/
def prettyItems (depth : Nat) : List Json → List Char
  | [] => []
  | item :: items =>
      ',' :: newLine depth ++ item.pretty depth ++ prettyItems depth items

/-- Each member after a comma, on a line of its own. -/
def prettyMembers (depth : Nat) : List (String × Json) → List Char
  | [] => []
  | (name, value) :: rest =>
    ',' :: newLine depth ++ writeString name ++
      ':' :: ' ' :: value.pretty depth ++
      prettyMembers depth rest

end

def toPrettyString (json : Json) : String :=
  String.ofList (json.pretty 0)

end Reparse.Json
