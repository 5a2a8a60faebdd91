import Reparse.Json.Fault
import Reparse.Text.Digits
import Reparse.Text.Rest

/-!
# Words and strings of JSON

A `Reader` takes something from the front of a text and leaves less than it
found.  Here are the ways to put readers together, and the readers of the
smallest parts.  A string can be read for its text, where every surrogate must
be one of a pair, or passed over, where an escape only needs its four digits.
-/

namespace Reparse.Json

open Text

/-- What was taken from the front of `s`, and what follows it. -/
abbrev Taken (α : Type) (s : List Char) := Except Fault (α × Rest s)

abbrev Reader (α : Type) := (s : List Char) → Taken α s

/-! ## Readers from readers -/

def Taken.map {α β : Type} {s : List Char} (f : α → β) (taken : Taken α s) :
    Taken β s :=
  match taken with
  | .error e => .error e
  | .ok (a, rest) => .ok (f a, rest)

def Taken.after {α : Type} {s : List Char} (c : Char) (taken : Taken α s) :
    Taken α (c :: s) :=
  match taken with
  | .error e => .error e
  | .ok (a, rest) => .ok (a, rest.after c)

namespace Reader

variable {α β σ : Type}

def map (f : α → β) (reader : Reader α) : Reader β := fun s =>
  Taken.map f (reader s)

def andThen (first : Reader α) (next : α → Reader β) : Reader β := fun s =>
  match first s with
  | .error e => .error e
  | .ok (a, rest) =>
    match next a rest.val with
    | .error e => .error e
    | .ok (b, rest') => .ok (b, rest.trans rest'.weaken)

/-- Steps until one has a result, in front of a remainder of `s`. -/
def iterateFrom (step : σ → Reader (σ ⊕ α)) {s : List Char} (state : σ)
    (t : Suffix s) : Taken α s :=
  match step state t.val with
  | .error e => .error e
  | .ok (.inr a, rest) => .ok (a, Suffix.rest t rest)
  | .ok (.inl state, rest) =>
      iterateFrom step state (Suffix.rest t rest).weaken
termination_by t.val.length
decreasing_by exact rest.property

def iterate (step : σ → Reader (σ ⊕ α)) (state : σ) : Reader α := fun s =>
  iterateFrom step state (Suffix.self s)

end Reader

def isSpace (c : Char) : Bool :=
  c == ' ' || c == '\t' || c == '\n' || c == '\r'

def skipSpace (s : List Char) : Suffix s :=
  Suffix.dropWhile isSpace s

/-- What `take` reads from the first character behind blanks and what follows
it; `atEnd` is the flaw of a text that ends there. -/
def onFirst {α : Type} (atEnd : Flaw)
    (take : (c : Char) → (r : List Char) → Taken α (c :: r)) :
    Reader α := fun s =>
  match skipSpace s with
  | ⟨[], _⟩ => .error (.before [] atEnd)
  | ⟨c :: r, h⟩ =>
    match take c r with
    | .error e => .error e
    | .ok (a, rest) => .ok (a, Suffix.rest ⟨c :: r, h⟩ rest)

/-! ## Words -/

/-- The value of a word, whose letters come next. -/
def readWord {α : Type} (value : α) :
    List Char → (s : List Char) → Except Fault (α × Suffix s)
  | [], s => .ok (value, Suffix.self s)
  | _ :: _, [] => .error (.before [] .endInValue)
  | letter :: letters, c :: r =>
    if c = letter then
      match readWord value letters r with
      | .error e => .error e
      | .ok (value, rest) => .ok (value, (rest.after c).weaken)
    else .error (.inside (c :: r) .badWord)

/-- The value of a word whose first letter is `c` and whose others come
next. -/
def wordAfter {α : Type} (c : Char) (letters : List Char) (value : α)
    (r : List Char) : Taken α (c :: r) :=
  match readWord value letters r with
  | .error e => .error e
  | .ok (value, rest) => .ok (value, rest.after c)

def skipColon : Reader Unit :=
  onFirst .endInObject fun c r =>
    if c = ':' then .ok ((), Rest.tail c r)
    else .error (.inside (c :: r) .colonMissing)

/-! ## Escapes -/

/-- The number that four hexadecimal digits denote. -/
def fourDigits? (a b c d : Char) : Option Nat :=
  match hexValue? a, hexValue? b, hexValue? c, hexValue? d with
  | some a, some b, some c, some d => some (((a * 16 + b) * 16 + c) * 16 + d)
  | _, _, _, _ => none

/-- The fault where four digits should stand: four bytes are there but no
digits, or the text ends. -/
def unitFault (s : List Char) : Fault :=
  if byteCount s < 4 then .before [] .endInString
  else ⟨.badEscape, byteCount s - 4⟩

/-- The code unit whose four digits stand in front of `s`. -/
def readUnit : Reader Nat := fun s =>
  match s with
  | a :: b :: c :: d :: r =>
    match fourDigits? a b c d with
    | some n =>
        Taken.after a (Taken.after b (Taken.after c (.ok (n, Rest.tail d r))))
    | none => .error (unitFault (a :: b :: c :: d :: r))
  | s => .error (unitFault s)

def isHighSurrogate (n : Nat) : Bool :=
  0xD800 ≤ n && n ≤ 0xDBFF

def isLowSurrogate (n : Nat) : Bool :=
  0xDC00 ≤ n && n ≤ 0xDFFF

def pairChar (high low : Nat) : Char :=
  Char.ofNat (0x10000 + (high - 0xD800) * 0x400 + (low - 0xDC00))

/-- The character of a pair whose first unit is `high`; the digits of the
second come next. -/
def readLow (high : Nat) : Reader Char := fun s =>
  match readUnit s with
  | .error e => .error e
  | .ok (low, rest) =>
    if isLowSurrogate low then .ok (pairChar high low, rest)
    else .error (.before rest.val .loneSurrogate)

/-- The character of a pair whose first unit is `high`; the escape of the
second comes next. -/
def readPair (high : Nat) : Reader Char := fun s =>
  match s with
  | '\\' :: 'u' :: r => Taken.after _ (Taken.after _ (readLow high r))
  | [] => .error (.before [] .endInString)
  | ['\\'] => .error (.before [] .endInString)
  | '\\' :: r => .error (.inside r .escapeMissing)
  | s => .error (.inside s .escapeMissing)

/-- The character that one unit denotes, or two of a pair. -/
def readUnits : Reader Char := fun s =>
  match readUnit s with
  | .error e => .error e
  | .ok (n, rest) =>
    if isHighSurrogate n then
      match readPair n rest.val with
      | .error e => .error e
      | .ok (c, rest') => .ok (c, rest.trans rest'.weaken)
    else if isLowSurrogate n then .error (.before rest.val .loneSurrogate)
    else .ok (Char.ofNat n, rest)

/-- The character that a letter after a backslash stands for, `u` apart. -/
def escaped? : Char → Option Char
  | '"' => some '"'
  | '\\' => some '\\'
  | '/' => some '/'
  | 'b' => some '\x08'
  | 'f' => some '\x0c'
  | 'n' => some '\n'
  | 'r' => some '\r'
  | 't' => some '\t'
  | _ => none

/-- An escape whose backslash stands before `s`; `units` reads what follows a
`u`. -/
def readEscape {α : Type} (units : Reader α) (letter : Char → α) :
    Reader α := fun s =>
  match s with
  | [] => .error (.before [] .endInString)
  | c :: r =>
    if c = 'u' then Taken.after c (units r)
    else
      match escaped? c with
      | some d => .ok (letter d, Rest.tail c r)
      | none => .error (.inside (c :: r) .badEscape)

/-! ## Strings -/

def isControl (c : Char) : Bool :=
  c.toNat < 0x20

/-- A step in a string; `done` is what was read of it, last first. -/
def stringStep (done : List Char) : Reader (List Char ⊕ String) := fun s =>
  match s with
  | [] => .error (.before [] .endInString)
  | c :: r =>
    if c = '"' then .ok (.inr (String.ofList done.reverse), Rest.tail c r)
    else if c = '\\' then
      Taken.after c
        (Taken.map (fun d => .inl (d :: done)) (readEscape readUnits id r))
    else if isControl c then .error (.before r .controlCharacter)
    else .ok (.inl (c :: done), Rest.tail c r)

/-- The string whose opening quote stands before `s`. -/
def readString : Reader String :=
  Reader.iterate stringStep []

/-- A step in a string that is passed over. -/
def skipStringStep (_ : Unit) : Reader (Unit ⊕ Unit) := fun s =>
  match s with
  | [] => .error (.before [] .endInString)
  | c :: r =>
    if c = '"' then .ok (.inr (), Rest.tail c r)
    else if c = '\\' then
      Taken.after c
        (Taken.map .inl
          (readEscape (readUnit.map fun _ => ()) (fun _ => ()) r))
    else if isControl c then .error (.before (c :: r) .controlCharacter)
    else .ok (.inl (), Rest.tail c r)

/-- Passes over the string whose opening quote stands before `s`. -/
def skipString : Reader Unit :=
  Reader.iterate skipStringStep ()

end Reparse.Json
