import Reparse.Files.Access

/-!
# A client of git

Git is run in a folder with arguments and answers with its output and whether
it succeeded.  The client asks a host for that, so its own state is that of the
host.

A checkout brings a folder to a reference of a repository: what is missing is
cloned, what is there is fetched and cleaned, and then the reference is checked
out and reset so that no local change stays.
-/

namespace Reparse.Git

open Files Text

structure Output where
  success : Bool
  stdout : List UInt8
  stderr : List UInt8

/-- What a client needs of its surroundings, whose state is `σ`. -/
structure Host (σ : Type) where
  isThere : σ → Path → Bool
  isFolder : σ → Path → Bool
  /-- Makes the folders of a path that are missing. -/
  makeFolders : σ → Path → Except SystemError Unit × σ
  /-- Runs git in a folder; it fails when git or the folder cannot be used. -/
  run : σ → Path → List String → Except SystemError Output × σ

inductive GitError where
  | notInstalled
  | commandFailed (args message : String)
  | parse (detail : String)
  deriving DecidableEq

def GitError.message : GitError → String
  | notInstalled => "git executable is not available in PATH"
  | commandFailed args message => s!"command failed: git {args} ({message})"
  | parse detail => s!"unable to parse git output: {detail}"

def GitError.kind : GitError → String
  | notInstalled => "NotInstalled"
  | commandFailed _ _ => "CommandFailed"
  | parse _ => "Parse"

/-- An action of the client: it may fail, and it changes the state of the
host. -/
abbrev Action (σ α : Type) := ExceptT GitError (StateM σ) α

structure Snapshot where
  path : Path
  ref : String
  head : String
  deriving DecidableEq

def showArgs (args : List String) : String :=
  String.intercalate " " args

/-- Why a run without success failed: what git says about it. -/
def complaint (stderr : List UInt8) : String :=
  let said := trim (Utf8.decodeLossy stderr)
  if said.isEmpty then "unknown error" else String.ofList said

/-- The output of a run, or why there is none. -/
def interpret (args : List String) :
    Except SystemError Output → Except GitError (List Char)
  | .error .notFound => .error .notInstalled
  | .error e => .error (.commandFailed (showArgs args) e.message)
  | .ok output =>
    if output.success then .ok (Utf8.decodeLossy output.stdout)
    else .error (.commandFailed (showArgs args) (complaint output.stderr))

/-- The first line that is not blank, without the blanks around it. -/
def firstLine? (text : List Char) : Option String :=
  (((lines text).map trim).find? fun line => !line.isEmpty).map String.ofList

namespace Host

variable {σ : Type} (host : Host σ)

def git (dir : Path) (args : List String) : Action σ (List Char) :=
  fun state =>
    let (result, state) := host.run state dir args
    (interpret args result, state)

/-- Runs commands in a folder, up to and including the first that fails. -/
def gitAll (dir : Path) : List (List String) → Action σ Unit
  | [] => pure ()
  | args :: rest => do
    let _ ← host.git dir args
    gitAll dir rest

def isAvailable : StateM σ Bool := fun state =>
  let (result, state) := host.run state ⟨"."⟩ ["--version"]
  (match result with
    | .ok output => output.success
    | .error _ => false, state)

def head (path : Path) : Action σ String := do
  let output ← host.git path ["rev-parse", "HEAD"]
  match firstLine? output with
  | some commit => return commit
  | none => throw (.parse "git rev-parse returned empty output")

/-- Removes what git does not know. -/
def cleanArgs : List String :=
  ["clean", "--force", "-d", "-x"]

/-- Fetches into a folder that is there. -/
def update (path : Path) : Action σ Unit :=
  host.gitAll path [["fetch", "--tags", "origin"], cleanArgs]

/-- The folder in which a clone is made. -/
def cloneParent (path : Path) : Path :=
  match path.parent? with
  | some parent => if parent.text.isEmpty then ⟨"."⟩ else parent
  | none => ⟨"."⟩

/-- Clones into a folder that is not there. -/
def clone (uri : String) (path : Path) : Action σ Unit := do
  let parent := cloneParent path
  let made ← (fun state =>
    let (result, state) := host.makeFolders state parent
    (.ok result, state) : Action σ (Except SystemError Unit))
  match made with
  | .error e =>
      throw (.commandFailed s!"clone {uri}"
        s!"cannot create {parent.text}: {e.message}")
  | .ok _ =>
    match path.fileName? with
    | none => throw (.parse s!"no directory name in {path.text}")
    | some name => host.gitAll parent [["clone", uri, name]]

def checkout (uri ref : String) (path : Path) : Action σ Snapshot := do
  if host.isThere (← get) path then host.update path else host.clone uri path
  host.gitAll path [["checkout", "--force", ref], ["reset", "--hard"],
    cleanArgs]
  return ⟨path, ref, ← host.head path⟩

end Host
end Reparse.Git
