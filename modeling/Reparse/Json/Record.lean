import Reparse.Json.Reader
import Reparse.Json.Writer
import Reparse.Text.Quoted

/-!
# Reading records from a text

A record is read from an object with its fields by name, or from an array with
its fields in order. Fields are read as they come, and the first fault ends the
reading; missing fields are looked for at the end of the object.
-/

namespace Reparse.Json

open Text

/-! ## Values of one type -/

/-- A scalar as a fault tells it. -/
def describe : Json → String
  | null => "null"
  | bool value => s!"boolean `{value}`"
  | int value => s!"integer `{value}`"
  | float value =>
      s!"floating point `{String.ofList (value.write numberLayout)}`"
  | str text => "string " ++ String.ofList (quoted text.toList)
  | arr _ => "sequence"
  | obj _ => "map"

/-- The fault of a value in front of `s` that is not what is expected; a flaw
in the value itself comes first. -/
def wrongType (expected : String) (s : List Char) : Fault :=
  match s with
  | '[' :: _ => .before s (.misfit (.wrongType (describe (arr [])) expected))
  | '\x7b' :: _ =>
      .before s (.misfit (.wrongType (describe (obj [])) expected))
  | s =>
    match readValue 0 s with
    | .error e => e
    | .ok (value, rest) =>
        .before rest.val (.misfit (.wrongType (describe value) expected))

/-- A value that `take` reads from its first character and what follows it, if
that character fits. -/
def readAs {α : Type} (expected : String)
    (take : (c : Char) → (r : List Char) → Option (Taken α (c :: r))) :
    Reader α :=
  onFirst .endInValue fun c r =>
    (take c r).getD (.error (wrongType expected (c :: r)))

def readText : Reader String :=
  readAs "a string" fun c r =>
    if c = '"' then some (Taken.after c (readString r)) else none

def readBool : Reader Bool :=
  readAs "a boolean" fun c r =>
    if c = 't' then some (wordAfter c ['r', 'u', 'e'] true r)
    else if c = 'f' then some (wordAfter c ['a', 'l', 's', 'e'] false r)
    else none

def readList {α : Type} (item : Reader α) : Reader (List α) :=
  readAs "a sequence" fun c r =>
    if c = '[' then some (Taken.after c (readItems item r)) else none

/-! ## Records -/

/-- A field of a record, of whose fields `σ` holds those read so far. -/
structure RecordField (σ : Type) where
  name : String
  given : σ → Bool
  read : σ → Reader σ
  /-- Whether an array may end before this field. -/
  optional : Bool

/-- The field whose value `reader` reads and `fill` puts where `slot` finds
it. -/
def RecordField.slot {σ α : Type} (name : String) (reader : Reader α)
    (slot : σ → Option α) (fill : σ → α → σ) (optional : Bool) :
    RecordField σ :=
  ⟨name, fun state => (slot state).isSome, fun state =>
    reader.map (fill state), optional⟩

structure Record (σ α : Type) where
  title : String
  fields : List (RecordField σ)
  /-- Whether a field of another name is a fault. -/
  strict : Bool
  start : σ
  finish : σ → Decoded α

namespace Record

variable {σ α : Type}

/-- The record and the number of its fields, as a fault tells it. -/
def withCount (record : Record σ α) : String :=
  let n := record.fields.length
  s!"{record.title} with {n} " ++ if n = 1 then "element" else "elements"

/-- The fault of a name in front of `s`, noticed at what follows the name. -/
def nameFault (flaw : Flaw) (s : List Char) : Fault :=
  match (skipSpace s).val with
  | '\x7d' :: r => .before r flaw
  | t => .before t flaw

/-- What a member makes of the fields: the value of a field is read, any other
is passed over. -/
def readMember (record : Record σ α) (name : String) (state : σ) :
    Reader σ := fun s =>
  match record.fields.find? (·.name == name) with
  | some field =>
    if field.given state then .error (nameFault (.repeatedField name) s)
    else (skipColon.andThen fun _ => field.read state) s
  | none =>
    if record.strict then
      .error
        (nameFault (.misfit (.unknownField name (record.fields.map (·.name))))
          s)
    else ((skipColon.andThen fun _ => skipValue).map fun _ => state) s

/-- The bracket that closes an array of which no more items are read. -/
def closeList : Reader Unit :=
  onFirst .endInList fun c r =>
    if c = ']' then .ok ((), Rest.tail c r)
    else if c = ',' then
      match (skipSpace r).val with
      | ']' :: u => .error (.inside (']' :: u) .trailingComma)
      | u => .error (.inside u .trailingCharacters)
    else .error (.inside (c :: r) .trailingCharacters)

/-- The next item of an array, behind a comma unless it is the first; none
where the array ends. -/
def readItem? {β : Type} (first : Bool) (item : Reader β) (s : List Char) :
    Except Fault (Option (β × Rest s)) :=
  match skipSpace s with
  | ⟨[], _⟩ => .error (.before [] .endInList)
  | ⟨c :: r, h⟩ =>
    let found (taken : Taken β (c :: r)) :
        Except Fault (Option (β × Rest s)) := do
      let (b, rest) ← taken
      return some (b, Suffix.rest ⟨c :: r, h⟩ rest)
    if c = ']' then .ok none
    else if first then found (item (c :: r))
    else if c = ',' then found (Taken.after c (readNext item r))
    else .error (.inside (c :: r) .listUnclosed)

/-- The fields in an array, of which `count` have been read. -/
def readFields (expected : String) (count : Nat) (state : σ) :
    List (RecordField σ) → Reader σ
  | [] => closeList.map fun _ => state
  | field :: fields => fun s =>
    match readItem? (count == 0) (field.read state) s with
    | .error e => .error e
    | .ok (some (state, rest)) =>
      match readFields expected (count + 1) state fields rest.val with
      | .error e => .error e
      | .ok (state, rest') => .ok (state, rest.trans rest'.weaken)
    | .ok none =>
      if field.optional then readFields expected count state fields s
      else
        match closeList s with
        | .error e => .error e
        | .ok (_, rest) =>
            .error (.before rest.val (.misfit (.wrongLength count expected)))

def read (record : Record σ α) : Reader α := fun s =>
  let fields := readAs record.title fun c r =>
    if c = '\x7b'
      then some (Taken.after c (readMembers record.readMember record.start r))
    else if c = '[' then
      some (Taken.after c
        (readFields record.withCount 0 record.start record.fields r))
    else none
  match fields s with
  | .error e => .error e
  | .ok (state, rest) =>
    match record.finish state with
    | .ok value => .ok (value, rest)
    | .error e => .error (.before rest.val (.misfit e))

end Record
end Reparse.Json
