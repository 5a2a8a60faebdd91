import Reparse.Corpus.Pool
import Reparse.Corpus.Registry
import Reparse.Git.Client
import Reparse.Source.Basic

/-!
# Verifying projects

A project is checked out below a working folder, and every source file in it is
put through a trial. The source files are the files with the extension of the
language, without what git keeps and what the project leaves out, in the order
of their paths.
-/

namespace Reparse.Corpus

open Files Git

/-- A host whose files can be read. -/
structure Workspace (σ : Type) extends Host σ where
  files : σ → Entry

inductive ProjectError where
  | git (e : GitError)
  | crash (c : Crash)
  | missingCheckout (name : String) (path : Path)
  | walk (name : String) (path : Path) (e : SystemError)

def ProjectError.message : ProjectError → String
  | git e => e.message
  | crash c => c.toString
  | missingCheckout name path => s!"project {name}: no checkout at {path.text}"
  | walk name path e =>
      s!"project {name}: cannot walk {path.text}: {e.message}"

/-- What was found in a project; `head` is the commit when git was used. -/
structure ProjectReport where
  name : String
  head : Option String
  total : Nat
  defects : List Defect
  deriving DecidableEq

def ProjectReport.success (r : ProjectReport) : Bool :=
  r.defects.isEmpty

def Project.checkoutDir (project : Project) (workdir : Path) : Path :=
  workdir.join ⟨project.name⟩

/-! ## Source files -/

def toyExtension : String := "toy"

def gitFolder : String := ".git"

/-- The last name of a path, or the path where it has none. -/
def lastName (path : Path) : String :=
  path.fileName?.getD path.text

def hasExtension (ext : String) (root : Path) (place : Place) (entry : Entry) :
    Bool :=
  entry.isFile &&
    (((place.getLast?).getD (lastName root)) |> Path.extensionOf?) == some ext

/-- The places of the source files below an entry, whose path is `root`,
without those whose path below it is excluded. -/
def sourcePlaces (excluded : String → Bool) (ext : String) (root : Path)
    (entry : Entry) : List Place :=
  let found := entry.walk (· != gitFolder) []
  let kept := found.filter fun (place, e) =>
    hasExtension ext root place e && !excluded (Path.ofParts place).text
  (kept.map (·.1)).mergeSort partsLe

def findSources (excluded : String → Bool) (files : Entry) (root : Path)
    (ext : String) : Except SystemError (List Place) :=
  match files.find root with
  | .error e => .error e
  | .ok entry =>
    if lastName root = gitFolder then .ok []
    else .ok (sourcePlaces excluded ext root entry)

def Project.sourceFiles (project : Project) (files : Entry) (root : Path)
    (ext : String) : Except ProjectError (List Place) :=
  (findSources project.excludes files root ext).mapError
    (.walk project.name root)

/-! ## Trials of files -/

def Project.identification (project : Project) (place : Place) : String :=
  project.name ++ "/" ++ (Path.ofParts place).text

/-- The trial of a source file in a checkout, unless it cannot be read. -/
def Project.trial (project : Project) (files : Entry) (root : Path)
    (parser : Parser) (printer : Printer) (place : Place) :
    Except SystemError Trial :=
  (files.readBytes (root.join (.ofParts place))).map fun bytes =>
    .ofSource parser printer (project.identification place) (.detect bytes)

def Project.check (project : Project) (files : Entry) (root : Path)
    (parser : Parser) (printer : Printer) (place : Place) : Finding :=
  match project.trial files root parser printer place with
  | .ok trial => trial.defect?.elim .passed .failed
  | .error e =>
    let shown := String.ofList (Text.quoted (Path.ofParts place).text.toList)
    .broken
      ⟨shown, s!"cannot read {(root.join (.ofParts place)).text}: {e.message}"⟩

/-! ## Projects -/

structure Options where
  /-- Whether the checkout is brought to its reference first. -/
  checkout : Bool := true
  ext : String := toyExtension

/-- The head of a checkout that is there now. -/
def Project.prepare {σ : Type} (project : Project) (workspace : Workspace σ)
    (root : Path) (checkout : Bool) (state : σ) :
    Except ProjectError (Option String) × σ :=
  if checkout then
    let (result, state) :=
      (workspace.toHost.checkout project.repoUri project.repoRef root).run.run
        state
    match result with
    | .ok snapshot => (.ok (some snapshot.head), state)
    | .error e => (.error (.git e), state)
  else if workspace.isFolder state root then (.ok none, state)
  else (.error (.missingCheckout project.name root), state)

/-- The report on a checkout, where `check` tells what is found in a file. -/
def Project.inspect (project : Project) (files : Entry) (root : Path)
    (ext : String) (check : Place → Finding) (head : Option String) :
    Except ProjectError ProjectReport := do
  let places ← project.sourceFiles files root ext
  let tally ← (checkAll check places).1.conclude.mapError .crash
  return ⟨project.name, head, tally.total, tally.defects⟩

/-- The report on a project, whose files `check` looks at once they are checked
out. -/
def Project.verifyWith {σ : Type} (project : Project) (workspace : Workspace σ)
    (workdir : Path) (options : Options)
    (check : Entry → Path → Place → Finding) (state : σ) :
    Except ProjectError ProjectReport × σ :=
  let root := project.checkoutDir workdir
  let (prepared, state) :=
    project.prepare workspace root options.checkout state
  match prepared with
  | .error e => (.error e, state)
  | .ok head =>
    let files := workspace.files state
    (project.inspect files root options.ext (check files root) head, state)

def Project.verify {σ : Type} (project : Project) (workspace : Workspace σ)
    (workdir : Path) (options : Options) (parser : Parser) (printer : Printer)
    (state : σ) : Except ProjectError ProjectReport × σ :=
  project.verifyWith workspace workdir options
    (fun files root => project.check files root parser printer) state

end Reparse.Corpus
