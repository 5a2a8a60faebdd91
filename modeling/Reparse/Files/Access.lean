import Reparse.Files.Entry
import Reparse.Files.Path
import Reparse.Text.Utf8

/-!
# Access by path

A path is followed from the folder where a program runs, name by name: `.`
stays, `..` goes back, and every other name must be in the folder reached so
far.  What lies outside of that folder is not there.
-/

namespace Reparse.Files

open Text

inductive SystemError where
  | notFound
  | alreadyThere
  | notFolder
  | isFolder
  | notText
  deriving DecidableEq

def SystemError.message : SystemError → String
  | notFound => "No such file or directory (os error 2)"
  | alreadyThere => "File exists (os error 17)"
  | notFolder => "Not a directory (os error 20)"
  | isFolder => "Is a directory (os error 21)"
  | notText => "stream did not contain valid UTF-8"

namespace Entry

/-- One name of a path, followed from a place that is there. -/
def step (root : Entry) (here : Place) (name : String) :
    Except SystemError Place :=
  match root.at? here with
  | some (.folder entries) =>
    if name = "." then .ok here
    else if name = ".." then
      (if here.isEmpty then .error .notFound else .ok here.dropLast)
    else if (child? name (.folder entries)).isSome then .ok (here ++ [name])
    else .error .notFound
  | some _ => .error .notFolder
  | none => .error .notFound

/-- The names of a path in order; one that ends in a slash ends with `.`. -/
def route (path : Path) : List String :=
  path.parts ++ if (path.pieces.2.getLast?.map Path.isIdle).getD false
    then ["."] else []

def locate (root : Entry) (path : Path) : Except SystemError Place :=
  if path.isAbsolute || path.text.isEmpty then .error .notFound
  else (route path).foldlM root.step []

def find (root : Entry) (path : Path) : Except SystemError Entry :=
  (root.locate path).bind fun place =>
    match root.at? place with
    | some entry => .ok entry
    | none => .error .notFound

def isThere (root : Entry) (path : Path) : Bool :=
  match root.find path with
  | .ok _ => true
  | .error _ => false

def hasFolder (root : Entry) (path : Path) : Bool :=
  match root.find path with
  | .ok entry => entry.isFolder
  | .error _ => false

def readBytes (root : Entry) (path : Path) : Except SystemError (List UInt8) :=
  match root.find path with
  | .ok (.file bytes) => .ok bytes
  | .ok (.folder _) => .error .isFolder
  | .ok (.link _) => .error .notFound
  | .error e => .error e

def readText (root : Entry) (path : Path) : Except SystemError String :=
  (root.readBytes path).bind fun bytes =>
    match Utf8.decode? bytes with
    | some text => .ok (String.ofList text)
    | none => .error .notText

/-- One name of a path, followed with a new folder where nothing is. -/
def stepMaking (reached : Entry × Place) (name : String) :
    Except SystemError (Entry × Place) :=
  let (root, here) := reached
  match root.step here name with
  | .ok place =>
    match root.at? place with
    | some (.folder _) => .ok (root, place)
    | _ => .error .alreadyThere
  | .error .notFound =>
    if name = ".." then .error .notFound
    else .ok (root.put (.folder []) (here ++ [name]), here ++ [name])
  | .error e => .error e

/-- Makes the folders of a path that are missing, from `here` on. -/
def makeFoldersFrom (root : Entry) (here : Place) (path : Path) :
    Except SystemError Entry :=
  if path.isAbsolute then .error .notFound
  else ((route path).foldlM stepMaking (root, here)).map (·.1)

def makeFolders (root : Entry) (path : Path) : Except SystemError Entry :=
  root.makeFoldersFrom [] path

end Entry
end Reparse.Files
