import Reparse.Proofs.Toy.Checked
import Reparse.Toy.Lexer

/-!
# Reading tokens by offsets

The lexer here keeps the whole text and goes through it by an offset, with the
number of the line and the offset at which the line begins.  It looks at
characters where there may be none, but cuts words out of the text between
bounds that have to be in range, and it tells columns by a difference of
offsets.  A byte escape moves the offset by two characters, whether the text
has as many or not.

Every loop takes the number of rounds that it is granted.
-/

namespace Reparse.Toy

open Text

/-- A token, or the mark behind the last one. -/
inductive Item where
  | token (t : Token)
  | stop (place : Place)

namespace Item

def kind : Item → Option TokenKind
  | token t => some t.kind
  | stop _ => none

def place : Item → Place
  | token t => t.start
  | stop place => place

def stopOffset : Item → Nat
  | token t => t.stop
  | stop place => place.offset

/-- The place from an item to an offset. -/
def spanTo (item : Item) (stop : Nat) : Span :=
  ⟨item.place.offset, stop, item.place.line⟩

end Item

/-- The tokens with the mark behind the last one. -/
def Lexed.items (lexed : Lexed) : List Item :=
  lexed.tokens.map .token ++ [.stop lexed.stop]

/-- How far the lexer has come: the offset, the line, and the offset at which
the line begins. -/
structure Scanner where
  offset : Nat
  line : Nat
  lineStart : Nat

abbrev Scan := Checked Scanner

namespace Scanner

open Checked

def start : Scanner := ⟨0, 1, 0⟩

def forward (n : Nat) : Scan Unit :=
  update fun st => { st with offset := st.offset + n }

/-- Right after a line feed a line begins. -/
def beginLine : Scan Unit :=
  update fun st => ⟨st.offset, st.line + 1, st.offset⟩

def column : Scan Nat := do
  let st ← state
  let distance ← difference st.offset st.lineStart
  pure (distance + 1)

def reject {α : Type} (cause : Cause) : Scan α := do
  let st ← state
  let column ← column
  report ⟨st.line, column, cause⟩

def here : Scan Place := do
  let st ← state
  let column ← column
  pure ⟨st.offset, st.line, column⟩

section Text

variable (text : List Char)

def peekAt (distance : Nat) : Scan (Option Char) := do
  let st ← state
  pure text[st.offset + distance]?

def peek : Scan (Option Char) :=
  peekAt text 0

def sliceFrom (start : Nat) : Scan (List Char) := do
  let st ← state
  slice text start st.offset

def passWhile (p : Char → Bool) : Nat → Scan Unit
  | 0 => spent
  | n + 1 => do
    match ← peek text with
    | some c =>
      if p c then do
        forward 1
        passWhile p n
      else pure ()
    | none => pure ()

def takeWhile (p : Char → Bool) (n : Nat) : Scan (List Char) := do
  let st ← state
  passWhile text p n
  sliceFrom text st.offset

/-! ## Words and numbers -/

def word (n : Nat) : Scan TokenKind := do
  let name ← takeWhile text isWordChar n
  pure (wordToken name)

/-- The symbol of an operator, the first character of which is in front. -/
def operatorSymbol (c : Char) : Scan TokenKind := do
  let next ← peekAt text 1
  if c = '-' ∧ next = some '@' then do
    forward 2
    pure (.sym "-@")
  else if c = '+' ∨ c = '-' ∨ c = '*' ∨ c = '/' then do
    forward 1
    pure (.sym (String.ofList [c]))
  else reject .malformedSymbol

def symbol (n : Nat) : Scan TokenKind := do
  forward 1
  match ← peek text with
  | none => reject .malformedSymbol
  | some c =>
    if isWordStart c then do
      let name ← takeWhile text isWordChar n
      pure (.sym (String.ofList name))
    else operatorSymbol text c

def passFraction (n : Nat) : Scan Bool := do
  let first ← peek text
  let next ← peekAt text 1
  if first = some '.' ∧ next.any isDigit then do
    forward 1
    passWhile text isDigit n
    pure true
  else pure false

def passExponent (n : Nat) : Scan Bool := do
  let first ← peek text
  if first = some 'e' ∨ first = some 'E' then do
    let next ← peekAt text 1
    let sign := if next = some '+' ∨ next = some '-' then 1 else 0
    let digit ← peekAt text (1 + sign)
    if digit.any isDigit then do
      forward (1 + sign)
      passWhile text isDigit n
      pure true
    else pure false
  else pure false

/-- Goes over a number, and tells whether it has a fraction or an exponent. -/
def passNumber (n : Nat) : Scan Bool := do
  passWhile text isDigit n
  let hasFraction ← passFraction text n
  let hasExponent ← passExponent text n
  pure (hasFraction || hasExponent)

def number (n : Nat) : Scan TokenKind := do
  let st ← state
  let hasFraction ← passNumber text n
  let digits ← sliceFrom text st.offset
  match numberToken digits hasFraction with
  | .ok kind => pure kind
  | .error cause => reject cause

/-! ## Strings -/

section Encoded

variable (encoding : Encoding)

def byteEscape : Scan Piece := do
  let st ← state
  let hex ← slice text st.offset (min (st.offset + 2) text.length)
  match readUnsigned? 16 hex with
  | some n => do
    forward 2
    pure (.ofByte encoding n)
  | none => reject (.invalidByteEscape (String.ofList hex))

def codePointEscape (n : Nat) : Scan Piece := do
  let first ← peek text
  if first = some '{' then do
    forward 1
    let hex ← takeWhile text (· != '}') n
    let last ← peek text
    if last = some '}' then do
      forward 1
      match readCodePoint? hex with
      | some c => pure (.char c)
      | none => reject (.invalidUnicodeEscape (String.ofList hex))
    else reject .unterminatedUnicodeEscape
  else reject .unicodeBraceExpected

def escape (n : Nat) : Scan Piece := do
  match ← peek text with
  | none => reject .unterminatedEscape
  | some c => do
    forward 1
    match c with
    | 'n' => pure (.char '\n')
    | 't' => pure (.char '\t')
    | 'r' => pure (.char '\r')
    | '0' => pure (.char '\x00')
    | '\\' => pure (.char '\\')
    | '"' => pure (.char '"')
    | 'x' => byteEscape text encoding
    | 'u' => codePointEscape text n
    | c => reject (.unknownEscape c)

/-- What stands in a literal from a character on, which has been passed
over. -/
def pieceFrom (n : Nat) (c : Char) : Scan Piece :=
  if c = '\n' then do
    beginLine
    pure (.char c)
  else if c = '\\' then escape text encoding n
  else pure (.char c)

def pieces : Nat → Scan (List Piece)
  | 0 => spent
  | n + 1 => do
    match ← peek text with
    | none => reject .unterminatedString
    | some c => do
      forward 1
      if c = '"' then pure []
      else do
        let piece ← pieceFrom text encoding n c
        let more ← pieces n
        pure (piece :: more)

def string (n : Nat) : Scan TokenKind := do
  forward 1
  let pieces ← pieces text encoding n
  pure (stringToken pieces)

/-! ## Tokens and comments -/

/-- The token that begins with the character in front. -/
def token (n : Nat) (c : Char) : Scan TokenKind :=
  if c = '\n' then do
    forward 1
    beginLine
    pure .separator
  else
    match markToken? c with
    | some kind => do
      forward 1
      pure kind
    | none =>
      if c = '"' then string text encoding n
      else if c = ':' then symbol text n
      else if isDigit c then number text n
      else if isWordStart c then word text n
      else reject (.unexpectedCharacter c)

def comment (n : Nat) : Scan Comment := do
  let first ← state
  forward 1
  let body ← takeWhile text (· != '\n') n
  let last ← state
  pure
    ⟨String.ofList (trimEnd body), some ⟨first.offset, last.offset, last.line⟩⟩

def items : Nat → Scan (List Item × List Comment)
  | 0 => spent
  | n + 1 => do
    passWhile text isSkipped n
    let place ← here
    match ← peek text with
    | none => pure ([.stop place], [])
    | some c =>
      if c = '#' then do
        let comment ← comment text n
        let (items, comments) ← items n
        pure (items, comment :: comments)
      else do
        let kind ← token text encoding n c
        let last ← state
        let (items, comments) ← items n
        pure (.token ⟨kind, place, last.offset⟩ :: items, comments)

end Encoded

end Text

end Scanner

end Reparse.Toy
