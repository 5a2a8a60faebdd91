/-!
# Maps and sets of names

Maps from names to values and sets of names, held as lists in increasing order
of the names.  Two maps are equal when they hold the same values, so equality
of lists decides it.
-/

namespace Reparse

/-- A list of names with values, increasing in the names. -/
abbrev NameMap (α : Type) := List (String × α)

namespace NameMap

variable {α : Type}

/-- The map with one more value, which takes the place of an earlier one of its
name. -/
def insert (name : String) (value : α) : NameMap α → NameMap α
  | [] => [(name, value)]
  | (n, v) :: rest =>
    if name < n then (name, value) :: (n, v) :: rest
    else if name = n then (name, value) :: rest
    else (n, v) :: insert name value rest

/-- The map of the pairs of a list; of two values of one name the later
counts. -/
def ofList (pairs : List (String × α)) : NameMap α :=
  pairs.foldl (fun map pair => map.insert pair.1 pair.2) []

end NameMap

/-- A list of names in increasing order. -/
abbrev NameSet := List String

namespace NameSet

def insert (name : String) : NameSet → NameSet
  | [] => [name]
  | n :: rest =>
    if name < n then name :: n :: rest
    else if name = n then n :: rest
    else n :: insert name rest

def ofList (names : List String) : NameSet :=
  names.foldl (fun set name => set.insert name) []

end NameSet
end Reparse
