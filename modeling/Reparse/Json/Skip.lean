import Reparse.Json.Number

/-!
# Passing over JSON values

A value that nobody asks for is passed over: it must be well formed, but its
numbers may be out of range, its strings may hold half of a surrogate pair, and
its arrays and objects may lie in each other as deep as they like.  The open
ones are kept in a list.
-/

namespace Reparse.Json

open Text

/-- An array or an object that is open. -/
inductive Bracket where
  | list
  | object

namespace Bracket

def closer : Bracket → Char
  | list => ']'
  | object => '\x7d'

/-- The flaw of a text that ends while this is open. -/
def unfinished : Bracket → Flaw
  | list => .endInList
  | object => .endInObject

/-- The flaw of something that is neither a comma nor the closing bracket. -/
def unclosed : Bracket → Flaw
  | list => .listUnclosed
  | object => .objectUnclosed

end Bracket

/-- Passes over a number, a word or a string, whose first character is `c`. -/
def skipScalar (c : Char) (r : List Char) : Taken Unit (c :: r) :=
  if c = 'n' then wordAfter c ['u', 'l', 'l'] () r
  else if c = 't' then wordAfter c ['r', 'u', 'e'] () r
  else if c = 'f' then wordAfter c ['a', 'l', 's', 'e'] () r
  else if c = '"' then Taken.after c (skipString r)
  else if c = '-'
    then Taken.after c (Taken.map (fun _ => ()) (readParts .badNumber r))
  else if isDigit c then
    Taken.map (fun _ => ()) (readParts .badNumber (c :: r))
  else .error (.inside (c :: r) .valueMissing)

/-- Passes over the name of a member and the colon behind it. -/
def skipName : Reader Unit :=
  onFirst .endInObject fun c r =>
    if c = '"' then Taken.after c ((skipString.andThen fun _ => skipColon) r)
    else .error (.inside (c :: r) .nameMissing)

/-- What must come before the next value inside a bracket. -/
def skipLead (bracket : Bracket) (s : List Char) : Except Fault (Suffix s) :=
  match bracket with
  | .list => .ok (Suffix.self s)
  | .object => do
    let (_, rest) ← skipName s
    return rest.weaken

/-- Behind a bracket that opens: the bracket stays open, unless it is closed at
once. -/
def skipOpened (bracket : Bracket) (s : List Char) :
    Except Fault (List Bracket × Suffix s) :=
  match skipSpace s with
  | ⟨[], _⟩ => .error (.before [] bracket.unfinished)
  | ⟨c :: r, h⟩ =>
    if c = bracket.closer then
      .ok ([], (Suffix.rest ⟨c :: r, h⟩ (Rest.tail c r)).weaken)
    else
      (skipLead bracket (c :: r)).map fun rest =>
        ([bracket], Suffix.trans ⟨c :: r, h⟩ rest)

/-- Passes over the front of a value: a scalar, an empty array or object, or a
bracket that stays open. -/
def skipFront : Reader (List Bracket) :=
  onFirst .endInValue fun c r =>
    if c = '[' then (skipOpened .list r).map fun (opened, rest) =>
      (opened, rest.after c)
    else if c = '\x7b' then (skipOpened .object r).map fun (opened, rest) =>
      (opened, rest.after c)
    else Taken.map (fun _ => []) (skipScalar c r)

/-- Passes over brackets that close, up to a comma with what must come before
the next value.  The brackets that are open then are given; none when all are
closed. -/
def skipClosers :
    List Bracket → (s : List Char) → Except Fault (List Bracket × Suffix s)
  | [], s => .ok ([], Suffix.self s)
  | bracket :: around, s =>
    match skipSpace s with
    | ⟨[], _⟩ => .error (.before [] bracket.unfinished)
    | ⟨c :: r, h⟩ =>
      if c = bracket.closer then
        (skipClosers around r).map fun (around, rest) =>
          (around, (Suffix.rest ⟨c :: r, h⟩ (rest.after c)).weaken)
      else if c = ',' then
        (skipLead bracket r).map fun rest =>
          (bracket :: around, (Suffix.rest ⟨c :: r, h⟩ (rest.after c)).weaken)
      else .error (.inside (c :: r) bracket.unclosed)

/-- Passes over one value inside brackets, and what closes after it. -/
def skipStep (around : List Bracket) :
    Reader (List Bracket ⊕ Unit) := fun s => do
  let (opened, rest) ← skipFront s
  if opened.isEmpty then
    let (around, t) ← skipClosers around rest.val
    return (if around.isEmpty then .inr () else .inl around, rest.trans t)
  else return (.inl (opened ++ around), rest)

def skipValue : Reader Unit :=
  Reader.iterate skipStep []

end Reparse.Json
