import Reparse.Replay.Suite
import Reparse.Text.Blank

/-!
# Test cases

Every capture of a test is a case, numbered within its test.  The cases of a
suite are sorted by the name of the test and then by number, whatever the order
of the tests.
-/

namespace Reparse.Replay

structure Case where
  name : String
  /-- The position among the captures of the test, from zero. -/
  group : Nat
  capture : Capture

/-- The name of a case in lists and reports. -/
def Case.key (c : Case) : String :=
  s!"{c.name}[{c.group}]"

def Case.le (a b : Case) : Bool :=
  a.name < b.name || (a.name == b.name && a.group ≤ b.group)

def casesOf (name : String) (captures : List Capture) : List Case :=
  captures.zipIdx.map fun (capture, group) => ⟨name, group, capture⟩

/-- The recorder after the test of a name, and why the test failed if it
did. -/
def Suite.runTest (suite : Suite) (name : String) (r : Recorder) :
    Recorder × Except SuiteError Unit :=
  match suite.find? name with
  | none => (r, .error (.unknownTest name))
  | some test => test.run r

/-- The cases of the tests of these names in order.  One recorder serves all of
them. -/
def Suite.record (suite : Suite) (r : Recorder) :
    List String → Except SuiteError (List Case)
  | [] => .ok []
  | name :: names =>
    match suite.runTest name r.beginTest with
    | (_, .error e) => .error e
    | (r, .ok _) =>
      let (captures, r) := r.takeCaptures
      (suite.record r names).map (casesOf name captures ++ ·)

def Suite.collectNamed (suite : Suite) (defaults : Attributes)
    (names : List String) : Except SuiteError (List Case) :=
  (suite.record (Recorder.new defaults) names).map (·.mergeSort Case.le)

def Suite.collect (suite : Suite) (defaults : Attributes) :
    Except SuiteError (List Case) :=
  suite.collectNamed defaults suite.names

def filterCases (part : String) (cases : List Case) : List Case :=
  cases.filter fun c => Text.contains part.toList c.name.toList

end Reparse.Replay
