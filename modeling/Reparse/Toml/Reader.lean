import Reparse.Text.Rest
import Reparse.Toml.Basic
import Reparse.Toml.Scalar
import Reparse.Toml.Token

/-!
# Reading TOML

The reader of TOML 1.0 documents, over the tokens of a text.  Arrays and inline
tables may lie in each other up to a limit, and a dotted key has fewer names
than the same limit.
-/

namespace Reparse.Toml

open Text

/-- Nesting and dotted keys stay below this. -/
def limit : Nat := 80

def isBlankToken : Token → Bool
  | .blank _ => true
  | _ => false

/-- Blanks and line feeds, which are all that may stand between the parts of an
array. -/
def isSpaceToken : Token → Bool
  | .blank _ => true
  | .newline => true
  | _ => false

def skipBlanks (s : List Token) : Suffix s :=
  Suffix.dropWhile isBlankToken s

def skipSpace (s : List Token) : Suffix s :=
  Suffix.dropWhile isSpaceToken s

/-! ## Keys -/

/-- A name of a key: bare, or a string on one line. -/
def keyName? : Token → Option String
  | .word cs => if cs.all isBare then some (String.ofList cs) else none
  | .text false s => some s
  | _ => none

/-- The name in front of `s`, and what follows it; blanks may stand on both
sides. -/
def readName? (s : List Token) : Option (String × Rest s) :=
  match skipBlanks s with
  | ⟨[], _⟩ => none
  | ⟨token :: r, h⟩ =>
      (keyName? token).map fun name => (name, Rest.trans ⟨r, h⟩ (skipBlanks r))

/-- The names of a key, and what follows it and the blanks after it. -/
def readKey? (s : List Token) : Option (List String × Rest s) :=
  match readName? s with
  | none => none
  | some (name, rest) =>
    match rest with
    | ⟨[], h⟩ => some ([name], ⟨[], h⟩)
    | ⟨c :: t, h⟩ =>
      if c = .sign '.' then
        (readKey? t).map fun (names, rest') =>
          (name :: names, Rest.trans ⟨c :: t, h⟩ (rest'.after c).weaken)
      else some ([name], ⟨c :: t, h⟩)
termination_by s.length
decreasing_by exact Nat.lt_of_succ_lt h

/-- A key of fewer names than the limit, as the way to its last name and that
name. -/
def readPath? (s : List Token) : Option ((List String × String) × Rest s) :=
  match readKey? s with
  | none => none
  | some (names, rest) =>
    if names.length < limit then
      names.getLast?.map fun name => ((names.dropLast, name), rest)
    else none

/-! ## Values -/

def isScalarToken : Token → Bool
  | .word _ => true
  | .sign c => c == '.'
  | _ => false

def scalarChars : Token → List Char
  | .word cs => cs
  | .sign c => [c]
  | _ => []

/-- The characters of a scalar that a list of tokens begins with, and what
follows it. -/
def takeScalar (s : List Token) : List Char × Suffix s :=
  ((s.takeWhile isScalarToken).flatMap scalarChars,
    Suffix.dropWhile isScalarToken s)

/-- The number, truth value or moment in front of `s`, and what follows it.  A
blank and a time may belong to a date. -/
def readScalar? (s : List Token) : Option (Toml × Suffix s) :=
  match takeScalar s with
  | (cs, ⟨rest, h⟩) =>
    match takeScalar rest.tail with
    | (time, ⟨t, h'⟩) =>
      if rest.head? = some (.blank ' ') ∧ isDate cs ∧ isZonedTime time then
        some (.moment, ⟨t, by simp only [List.length_tail] at h'; omega⟩)
      else if isDateTime cs then some (.moment, ⟨rest, h⟩)
      else (scalar? cs).map fun value => (value, ⟨rest, h⟩)

mutual

/-- The value that `s` begins with; `budget` arrays and inline tables may lie
in each other. -/
def readValue? (budget : Nat) (s : List Token) : Option (Toml × Rest s) :=
  match s with
  | [] => none
  | .text _ str :: r => some (.text str, Rest.tail _ r)
  | token :: r =>
    if token = .sign '[' then
      match budget with
      | 0 => none
      | budget + 1 =>
        match readItems? budget r with
        | none => none
        | some (items, ⟨rest, _⟩) =>
          some (.array items, ⟨rest, by simp only [List.length_cons]; omega⟩)
    else if token = .sign '{' then
      match budget with
      | 0 => none
      | budget + 1 =>
        match skipBlanks r with
        | ⟨t, _⟩ =>
          if t.head? = some (.sign '}') then
            some (.table [], ⟨t.tail,
              by simp only [List.length_tail, List.length_cons]; omega⟩)
          else
            match readPairs? budget [] t with
            | none => none
            | some (slots, ⟨rest, _⟩) =>
              some (.table (Slots.members slots),
                ⟨rest, by simp only [List.length_cons]; omega⟩)
    else match readScalar? (token :: r) with
    | some (value, ⟨rest, _⟩) =>
      if h : rest.length < (token :: r).length then some (value, ⟨rest, h⟩)
      else none
    | none => none
termination_by 2 * s.length
decreasing_by
  all_goals simp only [List.length_cons]
  all_goals omega

/-- The values up to the bracket that closes an array. -/
def readItems? (budget : Nat) (s : List Token) : Option (List Toml × Rest s) :=
  match skipSpace s with
  | ⟨t, _⟩ =>
    if h : t.head? = some (.sign ']') then
      some ([], ⟨t.tail, by
        cases t with
        | nil => simp at h
        | cons _ _ =>
            simp only [List.tail_cons, List.length_cons] at *; omega⟩)
    else
      match readValue? budget t with
      | none => none
      | some (item, ⟨r, _⟩) =>
        match skipSpace r with
        | ⟨[], _⟩ => none
        | ⟨c :: r, h'⟩ =>
          if c = .sign ']' then
            some ([item], ⟨r, by simp only [List.length_cons] at h'; omega⟩)
          else if c = .sign ',' then
            match readItems? budget r with
            | none => none
            | some (items, ⟨rest, _⟩) =>
              some (item :: items, ⟨rest,
                by simp only [List.length_cons] at h'; omega⟩)
          else none
termination_by 2 * s.length + 1
decreasing_by
  · omega
  · simp only [List.length_cons] at h'; omega

/-- The pairs up to the brace that closes an inline table, at least one, added
to `slots`. -/
def readPairs? (budget : Nat) (slots : Slots) (s : List Token) :
    Option (Slots × Rest s) :=
  match readPath? s with
  | none => none
  | some (_, ⟨[], _⟩) => none
  | some ((path, name), ⟨c :: r, h⟩) =>
    if c = .sign '=' then
      match skipBlanks r with
      | ⟨r, _⟩ =>
        match readValue? budget r with
        | none => none
        | some (value, ⟨r, _⟩) =>
          match slots.addKey path name value with
          | none => none
          | some slots =>
            match skipBlanks r with
            | ⟨[], _⟩ => none
            | ⟨c :: r, h'⟩ =>
              if c = .sign '}' then
                some
                  (slots, ⟨r, by simp only [List.length_cons] at h h'; omega⟩)
              else if c = .sign ',' then
                match readPairs? budget slots r with
                | none => none
                | some (slots, ⟨rest, _⟩) =>
                  some (slots,
                    ⟨rest, by simp only [List.length_cons] at h h'; omega⟩)
              else none
    else none
termination_by 2 * s.length + 1
decreasing_by
  · simp only [List.length_cons] at h; omega
  · simp only [List.length_cons] at h h'; omega

end

/-! ## Documents -/

inductive Line where
  | pair (path : List String) (name : String) (value : Toml)
  | table (path : List String) (name : String)
  | row (path : List String) (name : String)

/-- What follows the end of a line, with blanks in front of it. -/
def endLine? (s : List Token) : Option (Suffix s) :=
  match skipBlanks s with
  | ⟨[], h⟩ => some ⟨[], h⟩
  | ⟨c :: r, h⟩ =>
    if c = .newline then some ⟨r, by simp only [List.length_cons] at h; omega⟩
    else none

/-- The header whose first bracket comes first: between one bracket and
another, or between two and two for a row of an array of tables. -/
def readHeader? (s : List Token) : Option (Line × Rest s) :=
  match s with
  | _ :: b :: r =>
    if b = .sign '[' then
      match readPath? r with
      | some ((path, name), ⟨c :: d :: t, h⟩) =>
        if c = .sign ']' ∧ d = .sign ']' then
          some (.row path name,
            ⟨t, by simp only [List.length_cons] at h ⊢; omega⟩)
        else none
      | _ => none
    else
      match readPath? (b :: r) with
      | some ((path, name), ⟨c :: t, h⟩) =>
        if c = .sign ']' then
          some (.table path name,
            ⟨t, by simp only [List.length_cons] at h ⊢; omega⟩)
        else none
      | _ => none
  | _ => none

/-- A key with its value. -/
def readPair? (s : List Token) : Option (Line × Rest s) :=
  match readPath? s with
  | some ((path, name), ⟨c :: r, h⟩) =>
    if c = .sign '=' then
      match skipBlanks r with
      | ⟨t, _⟩ =>
        match readValue? (limit - 1) t with
        | some (value, ⟨rest, _⟩) =>
          some (.pair path name value,
            ⟨rest, by simp only [List.length_cons] at h; omega⟩)
        | none => none
    else none
  | _ => none

def readLine? (s : List Token) : Option (Line × Rest s) :=
  if s.head? = some (.sign '[') then readHeader? s else readPair? s

/-- The lines that say something. -/
def readLines? (s : List Token) : Option (List Line) :=
  match skipSpace s with
  | ⟨[], _⟩ => some []
  | ⟨token :: t, _h⟩ =>
    match readLine? (token :: t) with
    | none => none
    | some (line, ⟨r, _⟩) =>
      match endLine? r with
      | none => none
      | some ⟨r, _⟩ => (readLines? r).map (line :: ·)
termination_by s.length
decreasing_by omega

/-- The pairs in front, and the other lines. -/
def takePairs : List Line → List (List String × String × Toml) × List Line
  | .pair path name value :: lines =>
    let (pairs, rest) := takePairs lines
    ((path, name, value) :: pairs, rest)
  | lines => ([], lines)

theorem length_takePairs_le (lines : List Line) :
    (takePairs lines).2.length ≤ lines.length := by
  induction lines with
  | nil => simp [takePairs]
  | cons line lines ih =>
    cases line <;> simp only [takePairs, List.length_cons] <;> omega

/-- The slots with pairs added. -/
def fill (pairs : List (List String × String × Toml)) (slots : Slots) :
    Option Slots :=
  pairs.foldlM (fun slots (path, name, value) =>
    slots.addKey path name value) slots

/-- The slots of a document with the sections that begin with headers added. -/
def addSections (slots : Slots) (lines : List Line) : Option Slots :=
  match lines with
  | [] => some slots
  | .table path name :: rest =>
    match Slots.alter (Slots.addTable name (fill (takePairs rest).1)) path
      slots with
    | none => none
    | some slots => addSections slots (takePairs rest).2
  | .row path name :: rest =>
    match Slots.alter (Slots.addRow name (fill (takePairs rest).1)) path
      slots with
    | none => none
    | some slots => addSections slots (takePairs rest).2
  | .pair _ _ _ :: _ => none
termination_by lines.length
decreasing_by
  all_goals
    have := length_takePairs_le rest
    simp only [List.length_cons]
    omega

def read? (text : List Char) : Option (List (String × Toml)) := do
  let tokens ← tokens? text
  let lines ← readLines? tokens
  let (pairs, sections) := takePairs lines
  let slots ← addSections (← fill pairs []) sections
  return Slots.members slots

end Reparse.Toml
