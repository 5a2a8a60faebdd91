import Reparse.Source.Encoding
import Reparse.Text.Rest
import Reparse.Toy.Token

/-!
# Reading tokens

The lexer walks the text from left to right with the place it has reached.
Spaces, tabs and carriage returns stand between tokens; a comment runs from `#`
to the end of the line; line feeds and semicolons are separators.

In a string literal a byte escape gives a character where it can: always in a
source of raw bytes, and below U+0080 in the other encodings.  The remaining
bytes are kept, and the literal is text when all of it together is UTF-8.
-/

namespace Reparse.Toy

open Text

def isWordStart (c : Char) : Bool :=
  isLetter c || c == '_'

def isWordChar (c : Char) : Bool :=
  isLetter c || isDigit c || c == '_'

def wordToken (word : List Char) : TokenKind :=
  match String.ofList word with
  | "nil" => .nil
  | "true" => .bool true
  | "false" => .bool false
  | "__LINE__" => .lineWord
  | "__FILE__" => .fileWord
  | name => .ident name

/-! ## Symbols and numbers -/

/-- The name of the symbol whose colon stands before `s`, and what follows
it. -/
def scanSymbol? (s : List Char) : Option (List Char × Suffix s) :=
  match s with
  | [] => none
  | c :: r =>
    if isWordStart c then
      some (c :: r.takeWhile isWordChar,
        ((Suffix.dropWhile isWordChar r).after c).weaken)
    else if c = '-' then
      match r with
      | '@' :: r => some (['-', '@'], ((Rest.tail '@' r).after c).weaken)
      | r => some (['-'], (Rest.tail c r).weaken)
    else if c = '+' ∨ c = '*' ∨ c = '/' then some ([c], (Rest.tail c r).weaken)
    else none

/-- A point and digits, where `s` begins with them. -/
def fractionPart (s : List Char) : List Char :=
  match s with
  | '.' :: d :: r => if isDigit d then '.' :: d :: r.takeWhile isDigit else []
  | _ => []

/-- An exponent with its digits, where `s` begins with one. -/
def exponentPart (s : List Char) : List Char :=
  match s with
  | e :: c :: r =>
    if e = 'e' ∨ e = 'E' then
      if isDigit c then e :: c :: r.takeWhile isDigit
      else if c = '+' ∨ c = '-' then
        match r with
        | d :: r =>
            if isDigit d then e :: c :: d :: r.takeWhile isDigit else []
        | [] => []
      else []
    else []
  | _ => []

/-- The longest number that `s` begins with, and whether it has a fraction or
an exponent. -/
def numberPart (s : List Char) : List Char × Bool :=
  let whole := s.takeWhile isDigit
  let fraction := fractionPart (s.drop whole.length)
  let exponent := exponentPart (s.drop (whole.length + fraction.length))
  (whole ++ fraction ++ exponent, !fraction.isEmpty || !exponent.isEmpty)

/-- The token of a number; an integer without a sign must fit in 64 bits. -/
def numberToken (text : List Char) (hasFraction : Bool) :
    Except Cause TokenKind :=
  if hasFraction then .ok (.float ((Binary64.read? text).getD (.nan false)))
  else
    match readInt64? text with
    | some value => .ok (.int value)
    | none => .error (.integerTooLarge (String.ofList text))

/-! ## Strings -/

/-- One unit of a string literal: a character, or a byte that is text only
together with others. -/
inductive Piece where
  | char (c : Char)
  | byte (b : UInt8)
  deriving DecidableEq

def Piece.bytes : Piece → List UInt8
  | char c => Utf8.encodeChar c
  | byte b => [b]

def Piece.ofByte (encoding : Encoding) (n : Nat) : Piece :=
  if encoding = .binary ∨ n < 0x80 then .char (Char.ofNat n)
  else .byte (UInt8.ofNat n)

/-- The escape whose backslash stands before `s`. -/
def scanEscape (encoding : Encoding) (place : Place) (s : List Char) :
    Except Fault (Piece × Place × Rest s) :=
  match s with
  | [] => .error (place.fault .unterminatedEscape)
  | c :: r =>
    let after := place.skip 1
    let plain (d : Char) : Except Fault (Piece × Place × Rest (c :: r)) :=
      .ok (.char d, after, Rest.tail _ r)
    match c with
    | 'n' => plain '\n'
    | 't' => plain '\t'
    | 'r' => plain '\r'
    | '0' => plain '\x00'
    | '\\' => plain '\\'
    | '"' => plain '"'
    | 'x' =>
      let hex := r.take 2
      match readUnsigned? 16 hex with
      | some n =>
        .ok (.ofByte encoding n, after.skip 2,
          ⟨r.drop 2, by simp only [List.length_drop, List.length_cons]; omega⟩)
      | none => .error (after.fault (.invalidByteEscape (String.ofList hex)))
    | 'u' =>
      match r with
      | '{' :: r =>
        let hex := r.takeWhile (· != '}')
        let atBrace := after.skip (1 + hex.length)
        match h : r.dropWhile (· != '}') with
        | [] => .error (atBrace.fault .unterminatedUnicodeEscape)
        | _ :: rest =>
          match readCodePoint? hex with
          | some d => .ok (.char d, atBrace.skip 1, ⟨rest, by
              have := length_dropWhile_le (· != '}') r
              simp only [h, List.length_cons] at this ⊢
              omega⟩)
          | none =>
            .error ((atBrace.skip 1).fault
              (.invalidUnicodeEscape (String.ofList hex)))
      | _ => .error (after.fault .unicodeBraceExpected)
    | c => .error (after.fault (.unknownEscape c))

/-- The string literal whose opening quote stands before `s`. -/
def scanString (encoding : Encoding) (place : Place) (s : List Char) :
    Except Fault (List Piece × Place × Rest s) :=
  match s with
  | [] => .error (place.fault .unterminatedString)
  | c :: r =>
    if c = '"' then .ok ([], place.skip 1, Rest.tail _ r)
    else
      let first : Except Fault (Piece × Place × Suffix r) :=
        if c = '\n' then .ok (.char c, place.newLine, ⟨r, Nat.le_refl _⟩)
        else if c = '\\' then
          match scanEscape encoding (place.skip 1) r with
          | .ok (piece, place, ⟨rest, h⟩) =>
              .ok (piece, place, ⟨rest, Nat.le_of_lt h⟩)
          | .error e => .error e
        else .ok (.char c, place.skip 1, ⟨r, Nat.le_refl _⟩)
      match first with
      | .error e => .error e
      | .ok (piece, place, ⟨rest, _⟩) =>
        match scanString encoding place rest with
        | .error e => .error e
        | .ok (pieces, place, ⟨rest', _⟩) =>
          .ok (piece :: pieces, place,
            ⟨rest', by simp only [List.length_cons]; omega⟩)
termination_by s.length
decreasing_by
  simp only [List.length_cons]
  omega

def stringToken (pieces : List Piece) : TokenKind :=
  let data := pieces.flatMap Piece.bytes
  match Utf8.decode? data with
  | some text => .str (String.ofList text)
  | none => .bytes data

/-! ## Tokens -/

/-- The token of a character that stands for itself. -/
def markToken? : Char → Option TokenKind
  | ';' => some .separator
  | '(' => some .leftParen
  | ')' => some .rightParen
  | ',' => some .comma
  | '+' => some .plus
  | '-' => some .minus
  | '*' => some .star
  | '/' => some .slash
  | '=' => some .assign
  | _ => none

/-- The token that begins with `c` at `place`, with the place after it. -/
def scanToken (encoding : Encoding) (place : Place) (c : Char)
    (s : List Char) : Except Fault (TokenKind × Place × Suffix s) :=
  if c = '\n' then .ok (.separator, place.newLine, ⟨s, Nat.le_refl _⟩)
  else if c = '"' then
    match scanString encoding (place.skip 1) s with
    | .ok (pieces, place, ⟨rest, h⟩) =>
        .ok (stringToken pieces, place, ⟨rest, Nat.le_of_lt h⟩)
    | .error e => .error e
  else if c = ':' then
    match scanSymbol? s with
    | some (name, rest) =>
        .ok (.sym (String.ofList name), place.skip (1 + name.length), rest)
    | none => .error ((place.skip 1).fault .malformedSymbol)
  else if isDigit c then
    let number := numberPart (c :: s)
    let after := place.skip number.1.length
    match numberToken number.1 number.2 with
    | .ok kind =>
      .ok (kind, after, ⟨s.drop (number.1.length - 1),
        by simp only [List.length_drop]; omega⟩)
    | .error cause => .error (after.fault cause)
  else if isWordStart c then
    let word := c :: s.takeWhile isWordChar
    .ok (wordToken word, place.skip word.length, Suffix.dropWhile isWordChar s)
  else
    match markToken? c with
    | some kind => .ok (kind, place.skip 1, ⟨s, Nat.le_refl _⟩)
    | none => .error (place.fault (.unexpectedCharacter c))

/-- Blanks that separate tokens without being one. -/
def isSkipped (c : Char) : Bool :=
  c == ' ' || c == '\t' || c == '\r'

/-- The comment whose mark stands at `place` before `s`. -/
def comment (place : Place) (s : List Char) : Comment :=
  let body := s.takeWhile (· != '\n')
  ⟨String.ofList (trimEnd body),
    some ⟨place.offset, place.offset + 1 + body.length, place.line⟩⟩

/-- The tokens and comments of a text from `place` on. -/
def lexFrom (encoding : Encoding) (place : Place) (s : List Char) :
    Except Fault Lexed :=
  match s with
  | [] => .ok ⟨[], [], place⟩
  | c :: r =>
    if isSkipped c then lexFrom encoding (place.skip 1) r
    else if c = '#' then
      let length := (r.takeWhile (· != '\n')).length
      match lexFrom encoding (place.skip (1 + length))
        (r.dropWhile (· != '\n')) with
      | .ok lexed =>
          .ok { lexed with comments := comment place r :: lexed.comments }
      | .error e => .error e
    else
      match scanToken encoding place c r with
      | .error e => .error e
      | .ok (kind, next, ⟨rest, _⟩) =>
        match lexFrom encoding next rest with
        | .ok lexed =>
            .ok { lexed with tokens :=
              ⟨kind, place, next.offset⟩ :: lexed.tokens }
        | .error e => .error e
termination_by s.length
decreasing_by
  · simp
  · have := length_dropWhile_le (· != '\n') r
    simp only [List.length_cons]
    omega
  · simp only [List.length_cons]
    omega

def lex (encoding : Encoding) (text : List Char) : Except Fault Lexed :=
  lexFrom encoding .start text

end Reparse.Toy
