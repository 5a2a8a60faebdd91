import Reparse.Replay.Triage
import Reparse.Trial

/-!
# Replaying cases

Each case is judged by itself: skipped, or put through a trial whose verdict is
held against what was expected.  A run writes a line for each case in order and
stops after the first failure, whose report follows its line when a success was
expected.
-/

namespace Reparse.Replay

open Text

inductive Status where
  | success
  | skip
  | expectedFailure
  | failure
  deriving DecidableEq

def Status.label : Status → String
  | success => "Success"
  | skip => "Skip"
  | expectedFailure => "Expected Failure"
  | failure => "Failure"

structure Judgement where
  status : Status
  message : Option String
  report : Option String

def unexpectedSuccess : String := "Expected Failure but got success"
def unexpectedFailure : String := "Expected Success"

/-- The trial of the tree of a case; its source is text in UTF-8. -/
def Case.trial (c : Case) (parser : Parser) (printer : Printer) : Trial :=
  .ofTree parser printer c.key (some (.ofText c.capture.source.toList))
    c.capture.tree

def judge (policy : Policy) (parser : Parser) (printer : Printer) (c : Case) :
    Judgement :=
  match policy.triage parser c with
  | .skip reason => ⟨.skip, some reason.message, none⟩
  | .expectedFailure =>
    match (c.trial parser printer).verdict with
    | .mismatch => ⟨.expectedFailure, none, none⟩
    | _ => ⟨.failure, some unexpectedSuccess, none⟩
  | .expectedSuccess =>
    let trial := c.trial parser printer
    match trial.verdict with
    | .equivalent => ⟨.success, none, none⟩
    | .exempt exemption =>
        ⟨.success, some s!"exempt: {exemption.message}", none⟩
    | .mismatch => ⟨.failure, some unexpectedFailure, trial.report?⟩

/-! ## Lines -/

def labelWidth : Nat := 16

/-- The number of a case and of all cases, its status, its key and a message.
The two numbers have as many digits as the second. -/
def statusLine (index total : Nat) (status : Status) (c : Case)
    (message : Option String) : String :=
  let width := (decimal total).length
  let number (n : Nat) := String.ofList (padStart width '0' (decimal n))
  let label := String.ofList (padStart labelWidth ' ' status.label.toList)
  let suffix := (message.map fun m => s!" - {m}").getD ""
  s!"{number index}/{number total} {label}: {c.key}{suffix}"

/-! ## Runs -/

structure Failure where
  name : String
  group : Nat
  message : String
  report : Option String
  deriving DecidableEq

structure Summary where
  total : Nat
  executed : Nat := 0
  succeeded : Nat := 0
  skipped : Nat := 0
  expectedFailures : Nat := 0
  failure : Option Failure := none
  deriving DecidableEq

def Summary.success (s : Summary) : Bool :=
  s.failure.isNone

def Summary.count (s : Summary) (c : Case) (j : Judgement) : Summary :=
  let s := { s with executed := s.executed + 1 }
  match j.status with
  | .success => { s with succeeded := s.succeeded + 1 }
  | .skip => { s with skipped := s.skipped + 1 }
  | .expectedFailure => { s with expectedFailures := s.expectedFailures + 1 }
  | .failure =>
      { s with failure := some ⟨c.name, c.group, j.message.getD "", j.report⟩ }

/-- The lines of a case: its status and the report of a failure. -/
def caseLines (index total : Nat) (c : Case) (j : Judgement) : List String :=
  statusLine index total j.status c j.message :: j.report.toList

/-- The summary and the lines of judged cases, up to and including the first
failure. -/
def accountFrom (s : Summary) : List (Case × Judgement) → Summary × List String
  | [] => (s, [])
  | (c, j) :: rest =>
    let s := s.count c j
    let lines := caseLines s.executed s.total c j
    if j.status = .failure then (s, lines)
    else
      let (s, more) := accountFrom s rest
      (s, lines ++ more)

def account (cases : List (Case × Judgement)) : Summary × List String :=
  accountFrom { total := cases.length } cases

def replay (policy : Policy) (parser : Parser) (printer : Printer)
    (cases : List Case) : Summary × List String :=
  account (cases.map fun c => (c, judge policy parser printer c))

/-- Lines as text, each ended by a line feed. -/
def unlines (lines : List String) : String :=
  String.join (lines.map (· ++ "\n"))

end Reparse.Replay
