import Reparse.Text.Blank
import Reparse.Text.Digits

/-!
# Tokens of TOML

A text is cut into tokens by a machine that takes one character at a time.  A
word is a run of the characters of bare keys, numbers and dates; points,
brackets and the other signs stand for themselves.  Blanks and line feeds stay,
because the grammar of lines needs them; comments go.

A carriage return is right only before a line feed, and goes with it first.
-/

namespace Reparse.Toml

open Text

inductive Token where
  | word (cs : List Char)
  /-- A string; `multi` when it was written between three quotes. -/
  | text (multi : Bool) (s : String)
  /-- A point, a bracket, a brace, a comma or an equals sign. -/
  | sign (c : Char)
  | blank (c : Char)
  | newline
  deriving DecidableEq

/-- How a string is written: with escapes between `"`, or as it stands between
`'`, and between one quote or three. -/
structure Style where
  escapes : Bool
  multi : Bool

def Style.quote (style : Style) : Char :=
  if style.escapes then '"' else '\''

/-- What the machine is in the middle of; `read` is what it has of a word or
string, last first. -/
inductive Mode where
  | between
  | word (read : List Char)
  | comment
  /-- Up to three quotes at the start of a string. -/
  | opening (escapes : Bool) (quotes : Nat)
  | inside (style : Style) (read : List Char)
  /-- After the backslash of an escape. -/
  | escape (multi : Bool) (read : List Char)
  /-- In a code point with `left` digits to come. -/
  | code (multi : Bool) (read : List Char) (left value : Nat)
  /-- After a backslash that ends a line; `ended` when the line feed was
  there. -/
  | lineEnd (ended : Bool) (read : List Char)
  /-- After one or more quotes in a string between three. -/
  | closing (escapes : Bool) (read : List Char) (quotes : Nat)

/-- The characters of bare keys. -/
def isBare (c : Char) : Bool :=
  isLetter c || isDigit c || c == '-' || c == '_'

/-- The characters of keys, numbers and dates. -/
def isWord (c : Char) : Bool :=
  isBare c || c == '+' || c == ':'

def isSign (c : Char) : Bool :=
  c == '.' || c == '[' || c == ']' || c == '{' || c == '}' ||
    c == ',' || c == '='

/-- The characters of comments and strings: no control character but the
tabulator. -/
def isPlain (c : Char) : Bool :=
  c == '\t' || (0x20 ≤ c.toNat && c.toNat != 0x7F)

def textToken (multi : Bool) (read : List Char) : Token :=
  .text multi (String.ofList read.reverse)

/-- A character between tokens: the tokens that end with it and what it
begins. -/
def stepBetween (c : Char) : Option (List Token × Mode) :=
  if isWord c then some ([], .word [c])
  else if isSign c then some ([.sign c], .between)
  else if c = ' ' ∨ c = '\t' then some ([.blank c], .between)
  else if c = '\n' then some ([.newline], .between)
  else if c = '#' then some ([], .comment)
  else if c = '"' then some ([], .opening true 1)
  else if c = '\'' then some ([], .opening false 1)
  else none

/-- A token that is complete, and then a character between tokens. -/
def emitThen (token : Token) (c : Char) : Option (List Token × Mode) :=
  (stepBetween c).map fun (tokens, mode) => (token :: tokens, mode)

/-- A character inside a string. -/
def stepInside (style : Style) (read : List Char) (c : Char) :
    Option (List Token × Mode) :=
  if c = style.quote then
    if style.multi then some ([], .closing style.escapes read 1)
    else some ([textToken false read], .between)
  else if c = '\\' ∧ style.escapes then some ([], .escape style.multi read)
  else if isPlain c ∨ (c = '\n' ∧ style.multi)
    then some ([], .inside style (c :: read))
  else none

/-- The character that a letter after a backslash stands for. -/
def escaped? : Char → Option Char
  | 'b' => some '\x08'
  | 't' => some '\t'
  | 'n' => some '\n'
  | 'f' => some '\x0c'
  | 'r' => some '\r'
  | '"' => some '"'
  | '\\' => some '\\'
  | _ => none

def stepEscape (multi : Bool) (read : List Char) (c : Char) :
    Option (List Token × Mode) :=
  if c = 'u' then some ([], .code multi read 4 0)
  else if c = 'U' then some ([], .code multi read 8 0)
  else if c = '\n' ∧ multi then some ([], .lineEnd true read)
  else if (c = ' ' ∨ c = '\t') ∧ multi then some ([], .lineEnd false read)
  else (escaped? c).map fun d => ([], .inside ⟨true, multi⟩ (d :: read))

/-- A digit of a code point. -/
def stepCode (multi : Bool) (read : List Char) (left value : Nat) (c : Char) :
    Option (List Token × Mode) :=
  (hexValue? c).bind fun d =>
    let value := value * 16 + d
    if 1 < left then some ([], .code multi read (left - 1) value)
    else if value.isValidChar
      then some ([], .inside ⟨true, multi⟩ (Char.ofNat value :: read))
    else none

/-- A character after the first quotes of a string.  A line feed right after
three of them is not part of the string. -/
def stepOpening (escapes : Bool) (quotes : Nat) (c : Char) :
    Option (List Token × Mode) :=
  let style : Style := ⟨escapes, false⟩
  if quotes = 3 then
    if c = '\n' then some ([], .inside ⟨escapes, true⟩ [])
    else stepInside ⟨escapes, true⟩ [] c
  else if c = style.quote then some ([], .opening escapes (quotes + 1))
  else if quotes = 1 then stepInside style [] c
  else emitThen (textToken false []) c

/-- A character after quotes in a string between three; five quotes are two of
the string and the end, and so they close it at once. -/
def stepClosing (escapes : Bool) (read : List Char) (quotes : Nat) (c : Char) :
    Option (List Token × Mode) :=
  let style : Style := ⟨escapes, true⟩
  if c = style.quote then
    if quotes < 4 then some ([], .closing escapes read (quotes + 1))
    else some ([textToken true (List.replicate 2 c ++ read)], .between)
  else if quotes < 3 then
    stepInside style (List.replicate quotes style.quote ++ read) c
  else
    emitThen (textToken true (List.replicate (quotes - 3) style.quote ++ read))
      c

/-- One step of the machine: the tokens that are complete and the new mode. -/
def step : Mode → Char → Option (List Token × Mode)
  | .between, c => stepBetween c
  | .word read, c =>
    if isWord c then some ([], .word (c :: read))
    else emitThen (.word read.reverse) c
  | .comment, c =>
    if c = '\n' then some ([.newline], .between)
    else if isPlain c then some ([], .comment)
    else none
  | .opening escapes quotes, c => stepOpening escapes quotes c
  | .inside style read, c => stepInside style read c
  | .escape multi read, c => stepEscape multi read c
  | .code multi read left value, c => stepCode multi read left value c
  | .lineEnd ended read, c =>
    if c = '\n' then some ([], .lineEnd true read)
    else if c = ' ' ∨ c = '\t' then some ([], .lineEnd ended read)
    else if ended then stepInside ⟨true, true⟩ read c
    else none
  | .closing escapes read quotes, c => stepClosing escapes read quotes c

/-- The tokens that are complete at the end of a text; none when a string is
open. -/
def finish : Mode → Option (List Token)
  | .between => some []
  | .comment => some []
  | .word read => some [.word read.reverse]
  | .opening _ 2 => some [textToken false []]
  | .closing escapes read quotes =>
    if quotes < 3 then none
    else
      let quote := Style.quote ⟨escapes, true⟩
      some [textToken true (List.replicate (quotes - 3) quote ++ read)]
  | _ => none

def scan (mode : Mode) : List Char → Option (List Token)
  | [] => finish mode
  | c :: s =>
    match step mode c with
    | none => none
    | some (tokens, mode) => (scan mode s).map (tokens ++ ·)

/-- The text without the carriage returns before line feeds. -/
def dropReturns : List Char → List Char
  | '\r' :: '\n' :: s => '\n' :: dropReturns s
  | c :: s => c :: dropReturns s
  | [] => []

/-- The text without a mark of its byte order. -/
def dropMark : List Char → List Char
  | '\uFEFF' :: s => s
  | s => s

def tokens? (text : List Char) : Option (List Token) :=
  scan .between (dropReturns (dropMark text))

end Reparse.Toml
