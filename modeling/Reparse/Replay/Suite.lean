import Reparse.Replay.Capture
import Reparse.Text.Quoted
import Reparse.Tree.Reader

/-!
# Suites

A suite is a list of named tests, each a list of calls that assert something of
a parser.  It is put together from documents; the tests of all documents have
different names.  In a call the tree stands in its notation, and a test whose
notation cannot be read fails when the call is reached.
-/

namespace Reparse.Replay

open Text

/-- A call of a test as it is written down. -/
inductive Call where
  | parses (written source : String) (versions : Versions)
  | diagnoses (diagnostic source : String) (versions : Versions)
  | sourceMaps (source : String) (versions : Versions)
  | withVersions (versions : Versions) (calls : List Call)
  | setAttribute (name : String) (value : Bool)

structure Test where
  name : String
  calls : List Call

structure Document where
  version : String
  tests : List Test

inductive SuiteError where
  /-- A file of the suite cannot be read; the system says why. -/
  | unreadable (path reason : String)
  | invalidDocument (path reason : String)
  | duplicateTest (name : String)
  | invalidNode (test written reason : String)
  | unknownTest (name : String)
  deriving DecidableEq

def SuiteError.message : SuiteError → String
  | unreadable path reason => s!"suite {path}: cannot read: {reason}"
  | invalidDocument path reason => s!"suite {path}: invalid document: {reason}"
  | duplicateTest name => s!"suite test {name} defined twice"
  | invalidNode test text reason =>
    s!"suite test {test}: invalid node {String.ofList (quoted text.toList)}: {reason}"
  | unknownTest name => s!"suite has no test named {name}"

/-- The grammar versions of the documents and their tests in order. -/
structure Suite where
  versions : List String
  tests : List Test

namespace Suite

def empty : Suite :=
  ⟨[], []⟩

def names (suite : Suite) : List String :=
  suite.tests.map Test.name

def find? (suite : Suite) (name : String) : Option Test :=
  suite.tests.find? (·.name == name)

/-- The suite with one test more, whose name must be new. -/
def addTest (suite : Suite) (test : Test) : Except SuiteError Suite :=
  if (suite.find? test.name).isSome then .error (.duplicateTest test.name)
  else .ok { suite with tests := suite.tests ++ [test] }

/-- The suite with the version and the tests of a document. -/
def addDocument (suite : Suite) (document : Document) :
    Except SuiteError Suite :=
  let versions :=
    if suite.versions.contains document.version then suite.versions
    else suite.versions ++ [document.version]
  document.tests.foldlM addTest { suite with versions }

def ofDocuments (documents : List Document) : Except SuiteError Suite :=
  documents.foldlM addDocument empty

end Suite

mutual

def Call.toAssertion (test : String) : Call → Assertion SuiteError
  | .parses text source versions =>
    match Node.read text.toList with
    | .ok node => .parses ⟨some node, none⟩ source versions
    | .error e => .fail (.invalidNode test text e.message)
  | .diagnoses diagnostic source versions =>
      .diagnoses diagnostic source versions
  | .sourceMaps source versions => .sourceMaps source versions
  | .withVersions versions calls =>
      .withVersions versions (Call.toAssertions test calls)
  | .setAttribute name value => .setAttribute name value

def Call.toAssertions (test : String) : List Call → List (Assertion SuiteError)
  | [] => []
  | call :: calls => call.toAssertion test :: Call.toAssertions test calls

end

def Test.run (test : Test) (r : Recorder) :
    Recorder × Except SuiteError Unit :=
  r.runAll (Call.toAssertions test.name test.calls)

end Reparse.Replay
