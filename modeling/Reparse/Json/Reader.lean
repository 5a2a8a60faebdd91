import Reparse.Json.Skip

/-!
# Reading JSON

The reader of RFC 8259 texts, with arrays and objects less than 128 deep.
`readItems` and `readMembers` are made from a reader of what lies inside.
-/

namespace Reparse.Json

open Text

/-! ## Arrays -/

/-- An item behind a comma. -/
def readNext {α : Type} (item : Reader α) : Reader α :=
  onFirst .endInValue fun c r =>
    if c = ']' then .error (.inside (c :: r) .trailingComma) else item (c :: r)

/-- A step behind an item; `done` are the items before, last first. -/
def itemStep {α : Type} (item : Reader α) (done : List α) :
    Reader (List α ⊕ List α) :=
  onFirst .endInList fun c r =>
    if c = ']' then .ok (.inr done.reverse, Rest.tail c r)
    else if c = ',' then
      Taken.after c
        (Taken.map (fun value => .inl (value :: done)) (readNext item r))
    else .error (.inside (c :: r) .listUnclosed)

/-- The items of the array whose opening bracket stands before `s`. -/
def readItems {α : Type} (item : Reader α) : Reader (List α) :=
  onFirst .endInList fun c r =>
    if c = ']' then .ok ([], Rest.tail c r)
    else (item.andThen fun value =>
      Reader.iterate (itemStep item) [value]) (c :: r)

/-! ## Objects -/

/-- The name of a member, where one must stand. -/
def readName : Reader String :=
  onFirst .endInValue fun c r =>
    if c = '"' then Taken.after c (readString r)
    else if c = '\x7d' then .error (.inside (c :: r) .trailingComma)
    else .error (.inside (c :: r) .nameMissing)

/-- What a member makes of `state`; `member` takes what follows the name. -/
def readMember {σ : Type} (member : String → σ → Reader σ) (state : σ) :
    Reader σ :=
  readName.andThen fun name => member name state

/-- A step behind a member. -/
def memberStep {σ : Type} (member : String → σ → Reader σ) (state : σ) :
    Reader (σ ⊕ σ) :=
  onFirst .endInObject fun c r =>
    if c = '\x7d' then .ok (.inr state, Rest.tail c r)
    else if c = ','
      then Taken.after c (Taken.map .inl (readMember member state r))
    else .error (.inside (c :: r) .objectUnclosed)

/-- What the members make of `state`, in the object whose opening bracket
stands before `s`. -/
def readMembers {σ : Type} (member : String → σ → Reader σ) (state : σ) :
    Reader σ :=
  onFirst .endInObject fun c r =>
    if c = '\x7d' then .ok (state, Rest.tail c r)
    else
      ((readMember member state).andThen (Reader.iterate (memberStep member)))
        (c :: r)

/-! ## Values -/

/-- A member of an object before others, last first; `value` reads what follows
the colon. -/
def valueMember (value : Reader Json) (name : String)
    (done : List (String × Json)) : Reader (List (String × Json)) :=
  (skipColon.andThen fun _ => value).map fun value => (name, value) :: done

/-- A value; `budget` arrays and objects may lie in each other. -/
def readValue (budget : Nat) : Reader Json :=
  onFirst .endInValue fun c r =>
    if c = 'n' then wordAfter c ['u', 'l', 'l'] null r
    else if c = 't' then wordAfter c ['r', 'u', 'e'] (bool true) r
    else if c = 'f' then wordAfter c ['a', 'l', 's', 'e'] (bool false) r
    else if c = '"' then Taken.after c (Taken.map str (readString r))
    else if c = '-' then Taken.after c (readNumber true r)
    else if isDigit c then readNumber false (c :: r)
    else if c = '[' then
      match budget with
      | 0 => .error (.inside (c :: r) .tooDeep)
      | budget + 1 =>
          Taken.after c (Taken.map arr (readItems (readValue budget) r))
    else if c = '\x7b' then
      match budget with
      | 0 => .error (.inside (c :: r) .tooDeep)
      | budget + 1 =>
        Taken.after c (Taken.map (fun members => obj members.reverse)
          (readMembers (valueMember (readValue budget)) [] r))
    else .error (.inside (c :: r) .valueMissing)

/-- How deep arrays and objects may lie in each other. -/
def maxDepth : Nat := 127

/-- What a reader finds in a whole text, with blanks around it allowed. -/
def readAll {α : Type} (reader : Reader α) (text : List Char) :
    Except Fault α :=
  match reader text with
  | .error e => .error e
  | .ok (value, rest) =>
    match (skipSpace rest.val).val with
    | [] => .ok value
    | c :: r => .error (.inside (c :: r) .trailingCharacters)

def read (text : List Char) : Except Fault Json :=
  readAll (readValue maxDepth) text

def read? (text : List Char) : Option Json :=
  (read text).toOption

end Reparse.Json
