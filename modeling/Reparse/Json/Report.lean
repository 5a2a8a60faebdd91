import Reparse.Corpus.Verify
import Reparse.Json.Trial
import Reparse.Replay.Run

/-!
# Results as JSON

What is reported of a checkout, of the projects of a corpus and of a replayed
suite.
-/

namespace Reparse

/-! ## Checkouts -/

def Git.Snapshot.toJson (s : Git.Snapshot) : Json :=
  .obj [("path", .str s.path.text), ("git_ref", .str s.ref),
    ("head", .str s.head)]

/-! ## Projects -/

namespace Corpus

def Fault.toJson (f : Fault) : Json :=
  .obj [("item", .str f.item), ("message", .str f.message)]

def Tally.toJson (t : Tally) : Json :=
  .obj [("total", .int t.total),
    ("errors", .arr (t.defects.map Defect.toJson)),
    ("fault", .ofOption (t.fault.map Fault.toJson))]

def Project.toJson (p : Project) : Json :=
  .obj [("name", .str p.name), ("repo_uri", .str p.repoUri),
    ("repo_ref", .str p.repoRef),
    ("exclude", .ofTexts (p.exclude.map Glob.text))]

def ProjectReport.toJson (r : ProjectReport) : Json :=
  .obj [("name", .str r.name), ("head", .ofOption (r.head.map .str)),
    ("total", .int r.total),
    ("failures", .arr (r.defects.map Defect.toJson))]

end Corpus

/-! ## Replayed suites -/

namespace Replay

/-- A unit reason is its name; the one with a version is an object. -/
def SkipReason.toJson : SkipReason → Json
  | legacyAttributes => .str "legacy_attributes"
  | versionExcluded version =>
      .obj [("version_excluded", .obj [("version", .str version)])]
  | syntaxError => .str "syntax_error"
  | denylisted => .str "denylisted"

def SkipReason.version? : SkipReason → Option String
  | versionExcluded version => some version
  | _ => none

def Status.name : Status → String
  | success => "success"
  | skip => "skip"
  | expectedFailure => "expected_failure"
  | failure => "failure"

def Status.ofName? : String → Option Status
  | "success" => some success
  | "skip" => some skip
  | "expected_failure" => some expectedFailure
  | "failure" => some failure
  | _ => none

def Failure.toJson (f : Failure) : Json :=
  .obj [("name", .str f.name), ("group_index", .int f.group),
    ("message", .str f.message),
    ("report", .ofOption (f.report.map .str))]

def Summary.toJson (s : Summary) : Json :=
  .obj [("total", .int s.total), ("executed", .int s.executed),
    ("succeeded", .int s.succeeded),
    ("skipped", .int s.skipped),
    ("expected_failures", .int s.expectedFailures),
    ("failure", .ofOption (s.failure.map Failure.toJson))]

end Replay
end Reparse
