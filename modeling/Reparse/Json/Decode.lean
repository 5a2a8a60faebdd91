import Reparse.Json.Basic

/-!
# Decoding records

A record is an object with named fields, read in the order of its members; the
first error wins, and missing fields are looked for after all members.  A
record may also be an array of its fields in order.  A fault is told in words
where the words are known; any other fault is a mismatch.
-/

namespace Reparse

inductive DecodeError where
  | missingField (name : String)
  | unknownField (name : String) (expected : List String)
  | unknownVariant (name : String) (expected : List String)
  /-- A value of another type. -/
  | wrongType (found expected : String)
  /-- An array of a record that ends before all fields are there. -/
  | wrongLength (found : Nat) (expected : String)
  | mismatch
  deriving DecidableEq

namespace DecodeError

/-- A name between backticks. -/
def ticked (name : String) : String :=
  s!"`{name}`"

/-- The names that could have stood. -/
def alternatives : List String → String
  | [a] => ticked a
  | [a, b] => ticked a ++ " or " ++ ticked b
  | names => "one of " ++ String.intercalate ", " (names.map ticked)

def message? : DecodeError → Option String
  | missingField name => some ("missing field " ++ ticked name)
  | unknownField name expected =>
    some ("unknown field " ++ ticked name ++ ", expected " ++
      alternatives expected)
  | unknownVariant name expected =>
    some ("unknown variant " ++ ticked name ++ ", expected " ++
      alternatives expected)
  | wrongType found expected =>
      some s!"invalid type: {found}, expected {expected}"
  | wrongLength found expected =>
      some s!"invalid length {found}, expected {expected}"
  | mismatch => none

end DecodeError

abbrev Decoded (α : Type) := Except DecodeError α

namespace Decoded

/-- What is there, or a mismatch. -/
def ofOption {α : Type} (x : Option α) : Decoded α :=
  x.elim (.error .mismatch) .ok

def required {α : Type} (name : String) (x : Option α) : Decoded α :=
  x.elim (.error (.missingField name)) .ok

/-- The new value of a field that was not read before; a second member of one
name is a fault. -/
def once {α : Type} (before : Option α) (now : Decoded α) :
    Decoded (Option α) :=
  if before.isSome then .error .mismatch else now.map some

/-- A mismatch where elements are left over behind those of a record. -/
def noMore (rest : List Json) : Decoded Unit :=
  if rest.isEmpty then .ok () else .error .mismatch

end Decoded

namespace Json

def decodeText (json : Json) : Decoded String :=
  .ofOption json.text?

def decodeBool (json : Json) : Decoded Bool :=
  .ofOption json.bool?

def decodeNat (json : Json) : Decoded Nat :=
  .ofOption json.nat?

/-- A value, or `null` for none. -/
def decodeOption {α : Type} (decode : Json → Decoded α) (json : Json) :
    Decoded (Option α) :=
  match json with
  | null => .ok none
  | json => (decode json).map some

def decodeList {α : Type} (decode : Json → Decoded α) (json : Json) :
    Decoded (List α) :=
  (Decoded.ofOption json.items?).bind fun items => items.mapM decode

end Json
end Reparse
