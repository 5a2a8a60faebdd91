import Reparse.Language
import Reparse.Replay.Case

/-!
# Triage

What is done with a case: it is skipped for the first reason that applies, or
replayed with a failure or a success expected.
-/

namespace Reparse.Replay

/-- Why a case is skipped, in the order in which the reasons are tried. -/
inductive SkipReason where
  /-- Captured under other attributes than the usual ones. -/
  | legacyAttributes
  /-- Captured for other versions than that of the parser. -/
  | versionExcluded (version : String)
  /-- The source does not parse. -/
  | syntaxError
  | denylisted
  deriving DecidableEq

def SkipReason.message : SkipReason → String
  | legacyAttributes => "legacy builder attributes"
  | versionExcluded version => s!"excluded for version {version}"
  | syntaxError => "syntax error"
  | denylisted => "denylisted"

inductive Triage where
  | skip (reason : SkipReason)
  | expectedFailure
  | expectedSuccess
  deriving DecidableEq

/-- The usual attributes, and lists whose entries are the name of a test or the
key of a case. -/
structure Policy where
  attributes : Attributes
  denylist : NameSet
  expectedFailures : NameSet

namespace Policy

/-- Literals that stand for their own place do not survive printing, and a
number beyond the range has no spelling. -/
def standard : Policy :=
  { attributes := NameMap.ofList
      [("fold_negative_literals", true), ("emit_positional_literals", true)],
    denylist := NameSet.ofList ["test_line_literal", "test_file_literal"],
    expectedFailures := NameSet.ofList ["test_float_overflow"] }

def lists (list : NameSet) (c : Case) : Bool :=
  list.contains c.name || list.contains c.key

def denies (policy : Policy) (c : Case) : Bool :=
  lists policy.denylist c

def expectsFailure (policy : Policy) (c : Case) : Bool :=
  lists policy.expectedFailures c

def skipReason? (policy : Policy) (parser : Parser) (c : Case) :
    Option SkipReason :=
  if c.capture.attributes ≠ policy.attributes then some .legacyAttributes
  else if !c.capture.appliesTo parser.version
    then some (.versionExcluded parser.version)
  else
    match parser.parse (.ofText c.capture.source.toList) c.key with
    | .error _ => some .syntaxError
    | .ok _ => if policy.denies c then some .denylisted else none

def triage (policy : Policy) (parser : Parser) (c : Case) : Triage :=
  match policy.skipReason? parser c with
  | some reason => .skip reason
  | none =>
      if policy.expectsFailure c then .expectedFailure else .expectedSuccess

end Policy
end Reparse.Replay
