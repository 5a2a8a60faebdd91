import Reparse.Files.Access
import Reparse.Git.Client
import Reparse.Json.SuiteText

/-!
# Fetching and loading suites

The suite for a version of a language is kept in a folder named for the version
and fetched from a repository at the tag of the version when the folder is not
there.

A suite is loaded from a document, or from every document below a folder in the
order of a walk.  A document is a file with the extension `json`.  The first
fault ends the loading.
-/

namespace Reparse.Replay

open Files Git

/-! ## Fetching -/

def suiteUri : String := "https://github.com/roundtrip/toy-grammar-suite.git"

def suiteFolder (workdir : Path) (version : String) : Path :=
  workdir.join ⟨s!"toy-grammar-suite-{version}"⟩

def suiteTag (version : String) : String :=
  s!"v{version}"

/-- The folder of the suite for a version, after a checkout when it was not
there. -/
def fetchSuite {σ : Type} (host : Host σ) (uri : String) (workdir : Path)
    (version : String) : Action σ Path := do
  let path := suiteFolder workdir version
  if host.isFolder (← get) path then return path
  let _ ← host.checkout uri (suiteTag version) path
  return path

/-! ## Loading -/

def documentExtension : String := "json"

def documentPaths (files : Entry) (path : Path) : List Path :=
  match files.find path with
  | .ok (.folder entries) =>
    let found := (Entry.folder entries).walk (fun _ => true) []
    found.filterMap fun (place, entry) =>
      let isDocument := entry.isFile &&
        (place.getLast?.bind Path.extensionOf?) == some documentExtension
      if isDocument then some (path.join (.ofParts place)) else none
  | _ => [path]

def readDocument (files : Entry) (path : Path) :
    Except SuiteError Document := do
  let text ← (files.readText path).mapError fun e =>
    .unreadable path.text e.message
  (Document.read text.toList).mapError fun fault =>
    .invalidDocument path.text (fault.message text.toList)

def Suite.load (files : Entry) (path : Path) : Except SuiteError Suite :=
  (documentPaths files path).foldlM (fun suite path => do
    suite.addDocument (← readDocument files path)) Suite.empty

end Reparse.Replay
