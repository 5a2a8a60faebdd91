import Reparse.Json.Decode

/-!
# Faults in JSON texts

A fault is a flaw of a text and the place where it was noticed.  Places are
told by the line, counted from 1, and by the number of bytes in front of the
place on that line.
-/

namespace Reparse.Json

inductive Flaw where
  | endInList
  | endInObject
  | endInString
  | endInValue
  | colonMissing
  | listUnclosed
  | objectUnclosed
  | badWord
  | valueMissing
  | badEscape
  | badNumber
  | numberOutOfRange
  | controlCharacter
  | nameMissing
  | loneSurrogate
  | escapeMissing
  | trailingComma
  | trailingCharacters
  | tooDeep
  | repeatedField (name : String)
  | misfit (e : DecodeError)
  deriving DecidableEq

def Flaw.message : Flaw → String
  | endInList => "EOF while parsing a list"
  | endInObject => "EOF while parsing an object"
  | endInString => "EOF while parsing a string"
  | endInValue => "EOF while parsing a value"
  | colonMissing => "expected `:`"
  | listUnclosed => "expected `,` or `]`"
  | objectUnclosed => "expected `,` or `\x7d`"
  | badWord => "expected ident"
  | valueMissing => "expected value"
  | badEscape => "invalid escape"
  | badNumber => "invalid number"
  | numberOutOfRange => "number out of range"
  | controlCharacter =>
      "control character (\\u0000-\\u001F) found while parsing a string"
  | nameMissing => "key must be a string"
  | loneSurrogate => "lone leading surrogate in hex escape"
  | escapeMissing => "unexpected end of hex escape"
  | trailingComma => "trailing comma"
  | trailingCharacters => "trailing characters"
  | tooDeep => "recursion limit exceeded"
  | repeatedField name => "duplicate field " ++ DecodeError.ticked name
  | misfit e => e.message?.getD "invalid value"

def byteCount (s : List Char) : Nat :=
  s.foldl (fun n c => n + c.utf8Size) 0

/-- A flaw and the number of bytes of the text behind the place. -/
structure Fault where
  flaw : Flaw
  left : Nat
  deriving DecidableEq

namespace Fault

/-- A flaw noticed in front of `s`. -/
def before (s : List Char) (flaw : Flaw) : Fault :=
  ⟨flaw, byteCount s⟩

/-- A flaw noticed behind the first byte of `s`. -/
def inside (s : List Char) (flaw : Flaw) : Fault :=
  ⟨flaw, byteCount s - 1⟩

/-- The line and the column `offset` bytes behind a place. -/
def placeAt (line column offset : Nat) : List Char → Nat × Nat
  | [] => (line, column)
  | c :: s =>
    if offset = 0 then (line, column)
    else if c = '\n' then placeAt (line + 1) 0 (offset - 1) s
    else if offset < c.utf8Size then (line, column + offset)
    else placeAt line (column + c.utf8Size) (offset - c.utf8Size) s

def message (text : List Char) (fault : Fault) : String :=
  let (line, column) := placeAt 1 0 (byteCount text - fault.left) text
  s!"{fault.flaw.message} at line {line} column {column}"

end Fault
end Reparse.Json
