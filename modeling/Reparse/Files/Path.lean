import Reparse.Text.Blank

/-!
# Paths

A path is a text whose names are separated by slashes.  Empty names and `.` say
nothing, unless the `.` comes first.  The names that do say something are the
parts of a path; two paths with the same parts lead to the same place.
-/

namespace Reparse.Files

open Text

structure Path where
  text : String
  deriving DecidableEq

namespace Path

/-- What stands between the slashes: the first name and the others. -/
def pieces (path : Path) : List Char × List (List Char) :=
  match splitAt '/' path.text.toList with
  | [] => ([], [])
  | first :: others => (first, others)

/-- Whether a name after the first says nothing. -/
def isIdle (piece : List Char) : Bool :=
  piece.isEmpty || piece == ['.']

/-- The names after the first without the idle ones at the end. -/
def trimIdle (others : List (List Char)) : List (List Char) :=
  (others.reverse.dropWhile isIdle).reverse

def isAbsolute (path : Path) : Bool :=
  path.text.toList.head? == some '/'

/-- The names in order, without the root. -/
def parts (path : Path) : List String :=
  let (first, others) := path.pieces
  let start := if first.isEmpty then [] else [first]
  (start ++ others.filter fun piece => !isIdle piece).map String.ofList

def ofPieces (first : List Char) (others : List (List Char)) : Path :=
  ⟨String.ofList (first ++ others.flatMap ('/' :: ·))⟩

def parent? (path : Path) : Option Path :=
  let (first, others) := path.pieces
  match trimIdle others with
  | [] => if first.isEmpty then none else some ⟨""⟩
  | others =>
    match trimIdle others.dropLast with
    | [] => some (if first.isEmpty then ⟨"/"⟩ else ⟨String.ofList first⟩)
    | others => some (ofPieces first others)

/-- The last name, unless it is `.` or `..`. -/
def fileName? (path : Path) : Option String :=
  path.parts.getLast?.filter fun name => name != "." && name != ".."

/-- What follows the last point of a name, which must not be its first
character. -/
def extensionOf? (name : String) : Option String :=
  let pieces := splitAt '.' name.toList
  if pieces.length < 2 || (pieces.length = 2 && pieces.head? = some []) ||
    name = ".." then none
  else pieces.getLast?.map String.ofList

/-- A path below this one; an absolute path stands for itself. -/
def join (path other : Path) : Path :=
  if other.isAbsolute || path.text.isEmpty then other
  else if path.text.toList.getLast? = some '/' then ⟨path.text ++ other.text⟩
  else ⟨path.text ++ "/" ++ other.text⟩

def ofParts (parts : List String) : Path :=
  ⟨String.intercalate "/" parts⟩

end Path

/-- Whether one list of names stands before another or is the same: by names
from the left, and the shorter of two where one begins with the other. -/
def partsLe : List String → List String → Bool
  | [], _ => true
  | _ :: _, [] => false
  | a :: as, b :: bs => a < b || (a == b && partsLe as bs)

end Reparse.Files
