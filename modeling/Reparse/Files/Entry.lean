import Reparse.NameMap

/-!
# Folders and files

An entry is a file with its bytes, a link, or a folder of named entries.
Places below an entry are lists of names.  A walk meets every place once, a
folder before what it holds, and the names of a folder in increasing order;
links are met and not followed.
-/

namespace Reparse.Files

inductive Entry where
  | file (bytes : List UInt8)
  | link (target : String)
  | folder (entries : List (String × Entry))

/-- A place below an entry. -/
abbrev Place := List String

namespace Entry

def isFolder : Entry → Bool
  | folder _ => true
  | _ => false

def isFile : Entry → Bool
  | file _ => true
  | _ => false

def child? (name : String) : Entry → Option Entry
  | folder entries => (entries.find? (·.1 == name)).map (·.2)
  | _ => none

def at? (entry : Entry) : Place → Option Entry
  | [] => some entry
  | name :: place => (entry.child? name).bind (at? · place)

/-- The names and entries of a folder; none for anything else. -/
def entries : Entry → NameMap Entry
  | folder entries => entries
  | _ => []

/-- The entry with another at a place, and folders on the way where there were
none. -/
def put (entry : Entry) (new : Entry) : Place → Entry
  | [] => new
  | name :: place =>
    let child := (entry.child? name).getD (folder [])
    folder (NameMap.insert name (child.put new place) entry.entries)

mutual

/-- Every place at or below an entry with what is there.  `here` is the place
of the entry; names for which `keep` fails are left out with all that is below
them. -/
def walk (keep : String → Bool) (here : Place) : Entry → List (Place × Entry)
  | folder entries => (here, folder entries) :: walkAll keep here entries
  | file bytes => [(here, file bytes)]
  | link target => [(here, link target)]

def walkAll (keep : String → Bool) (here : Place) :
    List (String × Entry) → List (Place × Entry)
  | [] => []
  | (name, entry) :: rest =>
    (if keep name then entry.walk keep (here ++ [name]) else []) ++
      walkAll keep here rest

end

end Entry
end Reparse.Files
