import Reparse.CommandLine.Verify
import Reparse.Json.Report
import Reparse.Replay.Load

/-!
# The command `replay`

The cases of a suite are replayed.  Without a path the suite for the version of
the parser is fetched.  The lines of the run and a count are printed, or one
JSON value with all of it.
-/

namespace Reparse.CommandLine

open Corpus Files Replay

/-- The path of the suite, fetched when none is given. -/
def suitePath {σ : Type} (workspace : Workspace σ) (args : ReplayArgs)
    (version : String) (state : σ) : Except Git.GitError Path × σ :=
  match args.suite with
  | some path => (.ok ⟨path⟩, state)
  | none =>
      (fetchSuite workspace.toHost suiteUri ⟨args.workdir⟩ version).run.run
        state

def loadCases (files : Entry) (policy : Policy) (path : Path)
    (filter : Option String) : Except SuiteError (List Case) := do
  let suite ← Suite.load files path
  let cases ← suite.collect policy.attributes
  return match filter with
    | some part => filterCases part cases
    | none => cases

def countLine (s : Summary) : String :=
  s!"roundtrip replay: {s.executed} run, {s.succeeded} succeeded, {s.skipped} skipped, " ++
    s!"{s.expectedFailures} expected failures"

def replayJson (path : Path) (version : String) (filter : Option String)
    (summary : Summary) (output : String) (times : Times) : String :=
  let lines := (Text.lines output.toList).map String.ofList
  prettyObject
    [("suite", .str path.text), ("parser_version", .str version),
      ("filter", .ofOption (filter.map .str)),
      ("started_at", .str times.started),
      ("finished_at", .str times.finished), ("summary", summary.toJson),
      ("lines", .ofTexts lines), ("success", .bool summary.success)]

def runReplay {σ : Type} (workspace : Workspace σ) (times : Times)
    (args : ReplayArgs) (state : σ) : Ending × σ :=
  let parser := Toy.parser true
  let (path, state) := suitePath workspace args parser.version state
  match path with
  | .error e => (.error [] e.message, state)
  | .ok path =>
    match loadCases (workspace.files state) Policy.standard path
      args.filter with
    | .error e => (.error [] e.message, state)
    | .ok cases =>
      let (summary, lines) := replay Policy.standard parser Toy.printer cases
      let shown :=
        if args.json then
          [replayJson path parser.version args.filter summary
            (unlines lines) times]
        else lines ++ [countLine summary]
      (.done summary.success shown, state)

end Reparse.CommandLine
