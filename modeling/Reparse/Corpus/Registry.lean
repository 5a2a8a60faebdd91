import Reparse.Corpus.Glob
import Reparse.Json.Decode
import Reparse.Text.Quoted

/-!
# Registries

A registry lists the projects of a corpus in the order of its document.  Each
has a name of its own, a repository with a reference, and globs for the files
that are left out.
-/

namespace Reparse.Corpus

/-- A project as it is written down. -/
structure ProjectRow where
  name : String
  repoUri : String
  repoRef : String
  exclude : List String
  deriving DecidableEq

/-- A project whose globs have been read. -/
structure Project where
  name : String
  repoUri : String
  repoRef : String
  exclude : List Glob
  deriving DecidableEq

/-- Whether a glob leaves out the file at this path below the checkout. -/
def Project.excludes (project : Project) (path : String) : Bool :=
  project.exclude.any (·.accepts path)

inductive Malformed where
  /-- Not a TOML document. -/
  | notToml
  | misfit (e : DecodeError)
  deriving DecidableEq

def Malformed.message : Malformed → String
  | notToml => "not a TOML document"
  | misfit e => e.message?.getD "not a list of projects"

inductive RegistryError where
  | unreadable (path reason : String)
  | malformed (origin : String) (reason : Malformed)
  | duplicateProject (origin name : String)
  | invalidGlob (origin project glob : String) (e : GlobError)
  | unknownProject (name : String) (known : List String)
  deriving DecidableEq

namespace RegistryError

def message : RegistryError → String
  | unreadable path reason => s!"registry {path}: cannot read: {reason}"
  | malformed origin reason =>
      s!"registry {origin}: malformed: {reason.message}"
  | duplicateProject origin name =>
      s!"registry {origin}: duplicate project name: {name}"
  | invalidGlob origin project glob e =>
    let shown := String.ofList (Text.quoted glob.toList)
    s!"registry {origin}: project {project}: invalid exclude glob {shown}: {e.message}"
  | unknownProject name known =>
    let list := String.intercalate ", " known
    s!"unknown project: {name} (known: {list})"

/-- Whether the registry is at fault, and not a question to it. -/
def isRegistryFault : RegistryError → Bool
  | unknownProject _ _ => false
  | _ => true

end RegistryError

/-- The projects of a registry; `origin` names it in messages. -/
structure Registry where
  origin : String
  projects : List Project
  deriving DecidableEq

namespace Registry

/-- The globs of a row, up to the first that is none. -/
def compileGlobs (origin : String) (row : ProjectRow) :
    Except RegistryError (List Glob) :=
  row.exclude.mapM fun text =>
    (Glob.compile text).mapError (.invalidGlob origin row.name text)

/-- The registry with one project more, whose name must be new. -/
def addRow (registry : Registry) (row : ProjectRow) :
    Except RegistryError Registry :=
  if registry.projects.any (·.name == row.name) then
    .error (.duplicateProject registry.origin row.name)
  else do
    let exclude ← compileGlobs registry.origin row
    let project : Project := ⟨row.name, row.repoUri, row.repoRef, exclude⟩
    return { registry with projects := registry.projects ++ [project] }

/-- The registry of rows; the first fault in their order counts. -/
def ofRows (origin : String) (rows : List ProjectRow) :
    Except RegistryError Registry :=
  rows.foldlM addRow ⟨origin, []⟩

def names (registry : Registry) : List String :=
  registry.projects.map Project.name

def get (registry : Registry) (name : String) : Except RegistryError Project :=
  match registry.projects.find? (·.name == name) with
  | some project => .ok project
  | none => .error (.unknownProject name registry.names)

/-- The projects of these names in this order; all projects when no name is
given. -/
def select (registry : Registry) (names : List String) :
    Except RegistryError (List Project) :=
  if names.isEmpty then .ok registry.projects else names.mapM registry.get

end Registry

/-- The projects that are verified when no other registry is given. -/
def standardRows : List ProjectRow :=
  [⟨"toy-stdlib", "https://github.com/roundtrip/toy-stdlib.git", "v1.0.0", []⟩,
    ⟨"toy-examples", "https://github.com/roundtrip/toy-examples.git", "main",
      ["broken/**"]⟩,
    ⟨"toy-golden", "https://github.com/roundtrip/toy-golden.git", "v0.4.2",
      ["fixtures/invalid/*.toy", "vendor/**"]⟩]

def standardOrigin : String := "<embedded>"

def Registry.standard : Except RegistryError Registry :=
  Registry.ofRows standardOrigin standardRows

end Reparse.Corpus
