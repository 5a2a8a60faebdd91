import Reparse.Binary64.Basic

/-!
# TOML tables

A document is a table.  It is put together from keys with values and from
headers, which may lead through tables that are not there yet.  How a table
came to be decides what may be added to it: a table with a header of its own is
closed for headers and for dotted keys from outside, one that only lies on the
way of a header may still get its own, and one that a dotted key made takes
dotted keys only.
-/

namespace Reparse

/-- A TOML value.  A moment is only known to be one. -/
inductive Toml where
  | text (s : String)
  | bool (value : Bool)
  | int (value : Int)
  | float (value : Binary64)
  /-- A date, a time or both. -/
  | moment
  | array (items : List Toml)
  | table (members : List (String × Toml))

namespace Toml

inductive Origin where
  | header
  | implied
  | dotted
  deriving DecidableEq

/-- What a name stands for while a document is put together. -/
inductive Slot where
  | value (v : Toml)
  | table (origin : Origin) (slots : List (String × Slot))
  | tables (rows : List (List (String × Slot)))

/-- Names in the order in which they came. -/
abbrev Slots := List (String × Slot)

namespace Slots

def find? (name : String) (slots : Slots) : Option Slot :=
  (List.find? (·.1 == name) slots).map (·.2)

/-- The slots with a new one for a name that is there. -/
def replace (name : String) (slot : Slot) (slots : Slots) : Slots :=
  slots.map fun (n, s) => if n = name then (n, slot) else (n, s)

def erase (name : String) (slots : Slots) : Slots :=
  slots.filter (·.1 != name)

/-- The slots with a value for a name that is not there. -/
def add (name : String) (value : Toml) (slots : Slots) : Option Slots :=
  if (slots.find? name).isSome then none
  else some (slots ++ [(name, .value value)])

/-- The slots with a value below the names of a dotted key.  `origin` is that
of the table whose slots they are. -/
def addDotted (name : String) (value : Toml) (origin : Origin) :
    List String → Slots → Option Slots
  | [], slots => if origin = .dotted then slots.add name value else none
  | key :: path, slots =>
    match slots.find? key with
    | none =>
      (addDotted name value .dotted path []).map fun inner =>
        slots ++ [(key, .table .dotted inner)]
    | some (.table .header _) => none
    | some (.table origin inner) =>
      (addDotted name value origin path inner).map fun inner =>
        slots.replace key (.table origin inner)
    | some (.tables rows) =>
      (addDotted name value .header path (rows.getLast?.getD [])).map
        fun row => slots.replace key (.tables (rows.dropLast ++ [row]))
    | some (.value _) => none

/-- The slots with a value for a key, given as its names in order. -/
def addKey (slots : Slots) (path : List String) (name : String)
    (value : Toml) : Option Slots :=
  if path.isEmpty then slots.add name value
  else addDotted name value .header path slots

/-- The slots changed by `change` at the end of the way of a header. -/
def alter (change : Slots → Option Slots) : List String → Slots → Option Slots
  | [], slots => change slots
  | key :: path, slots =>
    match slots.find? key with
    | none =>
        (alter change path []).map fun inner =>
          slots ++ [(key, .table .implied inner)]
    | some (.table origin inner) =>
      (alter change path inner).map fun inner =>
        slots.replace key (.table origin inner)
    | some (.tables rows) =>
      (alter change path (rows.getLast?.getD [])).map fun row =>
        slots.replace key (.tables (rows.dropLast ++ [row]))
    | some (.value _) => none

/-- The slots with the table of a header, filled by `fill`.  A table that was
implied moves to the end. -/
def addTable (name : String) (fill : Slots → Option Slots) (slots : Slots) :
    Option Slots :=
  match slots.find? name with
  | none => (fill []).map fun inner => slots ++ [(name, .table .header inner)]
  | some (.table .implied inner) =>
    (fill inner).map fun inner =>
      slots.erase name ++ [(name, .table .header inner)]
  | some _ => none

/-- The slots with one row more of an array of tables, filled by `fill`. -/
def addRow (name : String) (fill : Slots → Option Slots) (slots : Slots) :
    Option Slots :=
  match slots.find? name with
  | none => (fill []).map fun row => slots ++ [(name, .tables [row])]
  | some (.tables rows) =>
    (fill []).map fun row => slots.replace name (.tables (rows ++ [row]))
  | some _ => none

end Slots

mutual

def Slot.toToml : Slot → Toml
  | .value v => v
  | .table _ slots => .table (Slots.members slots)
  | .tables rows => .array (Slots.rows rows)

def Slots.members : List (String × Slot) → List (String × Toml)
  | [] => []
  | (name, slot) :: slots => (name, slot.toToml) :: Slots.members slots

def Slots.rows : List (List (String × Slot)) → List Toml
  | [] => []
  | row :: rows => .table (Slots.members row) :: Slots.rows rows

end

end Toml
end Reparse
