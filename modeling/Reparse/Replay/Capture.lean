import Reparse.NameMap
import Reparse.Tree.Basic

/-!
# Recording assertions

A grammar suite asserts what a parser does; a recorder takes the place of the
parser and keeps every assertion that a source parses.  Such a capture has the
versions it was asserted for, or those of the innermost enclosing scope when it
names none, and the attributes set so far.  Scopes nest and end with their
body, also when the body fails; attributes stay until the next test.
-/

namespace Reparse.Replay

/-- Grammar versions; none stands for every version. -/
abbrev Versions := NameSet

/-- Switches of a parser by name. -/
abbrev Attributes := NameMap Bool

/-- An assertion that a source parses to a tree. -/
structure Capture where
  tree : Tree
  source : String
  attributes : Attributes
  versions : Versions

def Capture.appliesTo (capture : Capture) (version : String) : Bool :=
  capture.versions.isEmpty || capture.versions.contains version

/-- What a suite asserts; a step that cannot be carried out fails with its
reason. -/
inductive Assertion (ε : Type) where
  | parses (tree : Tree) (source : String) (versions : Versions)
  | diagnoses (diagnostic source : String) (versions : Versions)
  | sourceMaps (source : String) (versions : Versions)
  | withVersions (versions : Versions) (body : List (Assertion ε))
  | setAttribute (name : String) (value : Bool)
  | fail (reason : ε)

structure Recorder where
  /-- The attributes at the start of a test. -/
  defaults : Attributes
  attributes : Attributes
  /-- The versions of the innermost scope. -/
  ambient : Versions
  /-- The captures since the start of the test or the last taking. -/
  captures : List Capture
  /-- The number of assertions that a source is rejected. -/
  diagnoses : Nat

namespace Recorder

def new (defaults : Attributes) : Recorder :=
  ⟨defaults, defaults, [], [], 0⟩

/-- Forgets captures, attributes and scopes of an earlier test. -/
def beginTest (r : Recorder) : Recorder :=
  { r with attributes := r.defaults, ambient := [], captures := [] }

/-- The captures in the order of the calls, and the recorder without them. -/
def takeCaptures (r : Recorder) : List Capture × Recorder :=
  (r.captures, { r with captures := [] })

/-- Keeps an assertion that a source parses. -/
def record (r : Recorder) (tree : Tree) (source : String)
    (versions : Versions) : Recorder :=
  let versions := if versions.isEmpty then r.ambient else versions
  { r with captures := r.captures ++ [⟨tree, source, r.attributes, versions⟩] }

mutual

def run {ε : Type} (r : Recorder) : Assertion ε → Recorder × Except ε Unit
  | .parses tree source versions => (r.record tree source versions, .ok ())
  | .diagnoses _ _ _ => ({ r with diagnoses := r.diagnoses + 1 }, .ok ())
  | .sourceMaps _ _ => (r, .ok ())
  | .withVersions versions body =>
    let (inner, result) := runAll { r with ambient := versions } body
    ({ inner with ambient := r.ambient }, result)
  | .setAttribute name value =>
      ({ r with attributes := r.attributes.insert name value }, .ok ())
  | .fail reason => (r, .error reason)

def runAll {ε : Type} (r : Recorder) :
    List (Assertion ε) → Recorder × Except ε Unit
  | [] => (r, .ok ())
  | a :: rest =>
    match run r a with
    | (r, .ok _) => runAll r rest
    | (r, .error e) => (r, .error e)

end

end Recorder
end Reparse.Replay
