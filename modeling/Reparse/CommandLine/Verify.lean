import Reparse.CommandLine.Arguments
import Reparse.Corpus.Document
import Reparse.Json.Report
import Reparse.Json.Writer
import Reparse.Replay.Run
import Reparse.Toy.Parser
import Reparse.Toy.Printer

/-!
# The command `corpus`

The projects of a registry are verified one after another, up to the first with
a defect.  Their reports and a summary are printed, or one JSON value with all
of it.
-/

namespace Reparse.CommandLine

open Corpus Files

structure Ending where
  status : Nat
  stdout : String
  stderr : String
  deriving DecidableEq

def printed (lines : List String) : String :=
  Replay.unlines lines

def Ending.error (lines : List String) (reason : String) : Ending :=
  ⟨1, printed lines, printed [s!"error: {reason}"]⟩

def Ending.done (success : Bool) (lines : List String) : Ending :=
  ⟨if success then 0 else 1, printed lines, ""⟩

structure Times where
  started : String
  finished : String

/-- A JSON object as it is printed: its names in order. -/
def prettyObject (members : List (String × Json)) : String :=
  (Json.obj members).sorted.toPrettyString

/-! ## Listing -/

def listProjects (registry : Registry) (json : Bool) : List String :=
  if json then
    [prettyObject [("registry", .str registry.origin),
      ("projects", .ofTexts registry.names)]]
  else registry.names

/-! ## Verifying -/

def processed (total : Nat) : String :=
  s!"Processed: {total}"

/-- What is printed of a project while it is verified. -/
def progress : Except ProjectError ProjectReport → List String
  | .ok r => processed r.total :: r.defects.map Defect.report
  | .error (.crash c) => [processed c.total]
  | .error _ => []

/-- Projects verified in order: the reports, what is printed meanwhile, and the
error that ended it. -/
structure Verified where
  reports : List ProjectReport
  lines : List String
  error? : Option ProjectError

/-- Verifies projects up to the first with a defect or an error. -/
def verifyEach {σ : Type}
    (verify : Project → σ → Except ProjectError ProjectReport × σ) :
    List Project → σ → Verified × σ
  | [], state => (⟨[], [], none⟩, state)
  | project :: rest, state =>
    let (result, state) := verify project state
    match result with
    | .error e => (⟨[], progress (.error e), some e⟩, state)
    | .ok report =>
      if report.success then
        let (verified, state) := verifyEach verify rest state
        (⟨report :: verified.reports, progress (.ok report) ++ verified.lines,
          verified.error?⟩,
          state)
      else (⟨[report], progress (.ok report), none⟩, state)

def reportLine (r : ProjectReport) : String :=
  let head := (r.head.map fun head => s!" @ {head}").getD ""
  s!"  {r.name}: {r.total} files, {r.defects.length} failures{head}"

def summaryLines (registry : Registry) (workdir : String)
    (reports : List ProjectReport) (skipped : Nat) : List String :=
  let verdict := if reports.all ProjectReport.success then "pass" else "fail"
  ["roundtrip corpus", s!"  Registry: {registry.origin}",
    s!"  Workdir: {workdir}"] ++
    reports.map reportLine ++
    (if 0 < skipped then [s!"  Not verified: {skipped}"] else []) ++
    [s!"  Result: {verdict}"]

def summaryJson (registry : Registry) (workdir version : String)
    (reports : List ProjectReport) (skipped : Nat) (times : Times) : String :=
  prettyObject
    [("registry", .str registry.origin), ("workdir", .str workdir),
      ("parser_version", .str version), ("started_at", .str times.started),
      ("finished_at", .str times.finished),
      ("projects", .arr (reports.map ProjectReport.toJson)),
      ("skipped_projects", .int skipped),
      ("success", .bool (reports.all ProjectReport.success))]

def Verified.ending (v : Verified) (args : VerifyArgs) (registry : Registry)
    (version : String) (count : Nat) (times : Times) : Ending :=
  let lines := if args.json then [] else v.lines
  let skipped := count - v.reports.length
  match v.error? with
  | some e => .error lines e.message
  | none =>
    let summary :=
      if args.json then
        [summaryJson registry args.workdir version v.reports skipped times]
      else summaryLines registry args.workdir v.reports skipped
    .done (v.reports.all ProjectReport.success) (lines ++ summary)

def loadRegistry (files : Entry) :
    Option String → Except RegistryError Registry
  | some path => Registry.load files ⟨path⟩
  | none => Registry.standard

def runCorpus {σ : Type} (workspace : Workspace σ) (times : Times)
    (args : VerifyArgs) (state : σ) : Ending × σ :=
  match loadRegistry (workspace.files state) args.registry with
  | .error e => (.error [] e.message, state)
  | .ok registry =>
    if args.list then (.done true (listProjects registry args.json), state)
    else
      match registry.select args.names with
      | .error e => (.error [] e.message, state)
      | .ok projects =>
        let parser := Toy.parser true
        let verify (project : Project) (state : σ) :=
          project.verify workspace ⟨args.workdir⟩ { checkout := args.checkout }
            parser Toy.printer
            state
        let (verified, state) := verifyEach verify projects state
        (verified.ending args registry parser.version projects.length
          times, state)

end Reparse.CommandLine
