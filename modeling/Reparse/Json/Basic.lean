import Reparse.Binary64.Basic
import Reparse.NameMap

/-!
# JSON values

The members of an object are kept in the order of the text, a repeated name
included.  `sorted` gives the canonical form: names in increasing order, and
for a repeated name the last value.
-/

namespace Reparse

/-- A JSON value.  Integers that 64 bits hold, signed or unsigned, stay
integers. -/
inductive Json where
  | null
  | bool (value : Bool)
  | int (value : Int)
  | float (value : Binary64)
  | str (text : String)
  | arr (items : List Json)
  | obj (members : List (String × Json))

namespace Json

/-- The value of the first member of this name. -/
def lookup? (name : String) (members : List (String × Json)) : Option Json :=
  (members.find? (·.1 == name)).map (·.2)

def get? (name : String) : Json → Option Json
  | obj members => lookup? name members
  | _ => none

def text? : Json → Option String
  | str text => some text
  | _ => none

def bool? : Json → Option Bool
  | bool value => some value
  | _ => none

def items? : Json → Option (List Json)
  | arr items => some items
  | _ => none

def members? : Json → Option (List (String × Json))
  | obj members => some members
  | _ => none

def nat? : Json → Option Nat
  | int value => if 0 ≤ value then some value.toNat else none
  | _ => none

def int? : Json → Option Int
  | int value => some value
  | _ => none

def texts? (json : Json) : Option (List String) :=
  json.items?.bind fun items => items.mapM text?

def ofTexts (texts : List String) : Json :=
  arr (texts.map str)

/-- The value of `x`, `null` when there is none. -/
def ofOption (x : Option Json) : Json :=
  x.getD null

mutual

def sorted : Json → Json
  | arr items => arr (sortedItems items)
  | obj members => obj (sortedMembers members [])
  | null => null
  | bool value => bool value
  | int value => int value
  | float value => float value
  | str text => str text

def sortedItems : List Json → List Json
  | [] => []
  | item :: items => item.sorted :: sortedItems items

def sortedMembers :
    List (String × Json) → List (String × Json) → List (String × Json)
  | [], done => done
  | (name, value) :: rest, done =>
      sortedMembers rest (NameMap.insert name value.sorted done)

end

end Json
end Reparse
