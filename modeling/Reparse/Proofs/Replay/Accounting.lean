import Reparse.Proofs.Binary64.Literal
import Reparse.Proofs.Trial.Protocol
import Reparse.Replay.Run

/-!
# What a run accounts for

Every case is judged by itself: skipped for the first reason that applies, or
held to the verdict of its trial.  A run takes the cases up to and including
the first failure.  Its summary counts what was said of these cases, and its
text is a line for each of them, behind which stands the report on a case that
was expected to succeed.

What is written is spelled out here character by character: the words for a
status and for a reason, the digits of the numbers, and the line feed behind
every line.
-/

namespace Reparse.Replay

open Text

/-! ## One case -/

def SkipReason.Applies (policy : Policy) (parser : Parser) (c : Case) :
    SkipReason → Prop
  | .legacyAttributes => c.capture.attributes ≠ policy.attributes
  | .versionExcluded version =>
      version = parser.version ∧ c.capture.versions ≠ [] ∧
        version ∉ c.capture.versions
  | .syntaxError =>
      ∃ e, parser.parse (.ofText c.capture.source.toList) c.key = .error e
  | .denylisted => c.name ∈ policy.denylist ∨ c.key ∈ policy.denylist

/-- The words of a line for a reason. -/
def SkipReason.wording : SkipReason → String
  | .legacyAttributes => "legacy builder attributes"
  | .versionExcluded version => "excluded for version " ++ version
  | .syntaxError => "syntax error"
  | .denylisted => "denylisted"

theorem SkipReason.message_eq_wording (reason : SkipReason) :
    reason.message = reason.wording := by
  cases reason <;> rfl

/-- The place of a reason among those that are tried. -/
def SkipReason.rank : SkipReason → Nat
  | .legacyAttributes => 0
  | .versionExcluded _ => 1
  | .syntaxError => 2
  | .denylisted => 3

/-- The reason applies, and none that is tried before it. -/
def SkipReason.IsFirst (policy : Policy) (parser : Parser) (c : Case)
    (reason : SkipReason) : Prop :=
  reason.Applies policy parser c ∧
    ∀ other : SkipReason, other.rank < reason.rank →
      ¬ other.Applies policy parser c

/-- The case is listed among those that fail. -/
def Policy.Expects (policy : Policy) (c : Case) : Prop :=
  c.name ∈ policy.expectedFailures ∨ c.key ∈ policy.expectedFailures

/-- None of the reasons to skip the case applies. -/
def Policy.Tries (policy : Policy) (parser : Parser) (c : Case) : Prop :=
  ∀ reason : SkipReason, ¬ reason.Applies policy parser c

/-- What there is to say of a case, whatever stands before and after it. -/
inductive Judges (policy : Policy) (parser : Parser) (printer : Printer)
    (c : Case) : Judgement → Prop where
  | skipped {reason : SkipReason}
      (hfirst : reason.IsFirst policy parser c) :
      Judges policy parser printer c ⟨.skip, some reason.wording, none⟩
  | failsAsExpected (htried : policy.Tries parser c)
      (hlisted : policy.Expects c)
      (hverdict : (c.trial parser printer).verdict = .mismatch) :
      Judges policy parser printer c ⟨.expectedFailure, none, none⟩
  | succeedsUnexpectedly (htried : policy.Tries parser c)
      (hlisted : policy.Expects c)
      (hverdict : (c.trial parser printer).verdict ≠ .mismatch) :
      Judges policy parser printer c
        ⟨.failure, some "Expected Failure but got success", none⟩
  | equivalent (htried : policy.Tries parser c)
      (hlisted : ¬ policy.Expects c)
      (hverdict : (c.trial parser printer).verdict = .equivalent) :
      Judges policy parser printer c ⟨.success, none, none⟩
  | exempt (htried : policy.Tries parser c)
      (hlisted : ¬ policy.Expects c)
      (hverdict :
        (c.trial parser printer).verdict = .exempt .encodingGap) :
      Judges policy parser printer c
        ⟨.success, some "exempt: generated encoding incompatibility", none⟩
  | failsUnexpectedly {report : String} (htried : policy.Tries parser c)
      (hlisted : ¬ policy.Expects c)
      (hverdict : (c.trial parser printer).verdict = .mismatch)
      (hreport : (c.trial parser printer).report? = some report) :
      Judges policy parser printer c
        ⟨.failure, some "Expected Success", some report⟩

section Cases

variable {policy : Policy} {parser : Parser} {printer : Printer}
variable {c : Case} {j : Judgement}

theorem lists_iff {list : NameSet} :
    Policy.lists list c = true ↔ c.name ∈ list ∨ c.key ∈ list := by
  simp [Policy.lists]

theorem appliesTo_eq_false_iff {capture : Capture} {version : String} :
    capture.appliesTo version = false ↔
      capture.versions ≠ [] ∧ version ∉ capture.versions := by
  simp [Capture.appliesTo]

/-- The reasons are tried by rank, and the first that applies is given. -/
theorem skipReason?_cases (policy : Policy) (parser : Parser) (c : Case) :
    (∃ reason, policy.skipReason? parser c = some reason ∧
        reason.IsFirst policy parser c) ∨
      (policy.skipReason? parser c = none ∧ policy.Tries parser c) := by
  unfold Policy.skipReason?
  by_cases hlegacy : c.capture.attributes ≠ policy.attributes
  · rw [if_pos hlegacy]
    exact .inl ⟨_, rfl, hlegacy,
      fun other hrank => absurd hrank (Nat.not_lt_zero _)⟩
  rw [if_neg hlegacy]
  cases happlies : c.capture.appliesTo parser.version with
  | false =>
      refine .inl ⟨_, rfl, ⟨rfl, appliesTo_eq_false_iff.mp happlies⟩,
        fun other hrank => ?_⟩
      cases other with
      | legacyAttributes => exact hlegacy
      | _ => simp [SkipReason.rank] at hrank
  | true =>
      have hversion : ∀ version,
          ¬ (SkipReason.versionExcluded version).Applies policy parser c := by
        rintro _ ⟨rfl, hexcluded⟩
        rw [appliesTo_eq_false_iff.mpr hexcluded] at happlies
        cases happlies
      simp only [Bool.not_true, Bool.false_eq_true, if_false]
      cases hparse : parser.parse (.ofText c.capture.source.toList) c.key with
      | error e =>
          refine .inl ⟨_, rfl, ⟨e, hparse⟩, fun other hrank => ?_⟩
          cases other with
          | legacyAttributes => exact hlegacy
          | versionExcluded version => exact hversion version
          | _ => simp [SkipReason.rank] at hrank
      | ok tree =>
          have hsyntax : ¬ SkipReason.syntaxError.Applies policy parser c := by
            rintro ⟨e, he⟩
            rw [hparse] at he
            cases he
          by_cases hdenied : policy.denies c = true
          · simp only [hdenied, if_true]
            refine .inl ⟨_, rfl, lists_iff.mp hdenied, fun other hrank => ?_⟩
            cases other with
            | legacyAttributes => exact hlegacy
            | versionExcluded version => exact hversion version
            | syntaxError => exact hsyntax
            | denylisted => simp [SkipReason.rank] at hrank
          · simp only [hdenied, Bool.false_eq_true, if_false]
            refine .inr ⟨trivial, fun reason => ?_⟩
            cases reason with
            | legacyAttributes => exact hlegacy
            | versionExcluded version => exact hversion version
            | syntaxError => exact hsyntax
            | denylisted =>
                exact fun happlied => hdenied (lists_iff.mpr happlied)

/-- The trial of a case starts from a tree. -/
theorem verdict_trial_ne_invalidSource :
    (c.trial parser printer).verdict ≠ .exempt .invalidSource := by
  intro hverdict
  obtain ⟨e, he⟩ := (Trial.exact_complete _).invalid_iff.mp hverdict
  cases he

theorem exists_report_of_mismatch
    (hverdict : (c.trial parser printer).verdict = .mismatch) :
    ∃ report, (c.trial parser printer).report? = some report := by
  refine Option.ne_none_iff_exists'.mp fun hnone => ?_
  have hequivalent : (c.trial parser printer).verdict = .equivalent :=
    (Trial.exact_complete _).report_iff.mp hnone
  rw [hverdict] at hequivalent
  cases hequivalent

theorem judges_judge :
    Judges policy parser printer c (judge policy parser printer c) := by
  unfold judge Policy.triage
  rcases skipReason?_cases policy parser c with
    ⟨reason, hreason, hfirst⟩ | ⟨hnone, htried⟩
  · simp only [hreason, SkipReason.message_eq_wording]
    exact .skipped hfirst
  rw [hnone]
  by_cases hlisted : policy.expectsFailure c = true
  · simp only [hlisted, if_true]
    have hexpects : policy.Expects c := lists_iff.mp hlisted
    cases hverdict : (c.trial parser printer).verdict with
    | mismatch => exact .failsAsExpected htried hexpects hverdict
    | _ =>
        exact .succeedsUnexpectedly htried hexpects (by simp [hverdict])
  · simp only [hlisted, Bool.false_eq_true, if_false]
    have hexpects : ¬ policy.Expects c :=
      fun hfound => hlisted (lists_iff.mpr hfound)
    cases hverdict : (c.trial parser printer).verdict with
    | equivalent => exact .equivalent htried hexpects hverdict
    | exempt exemption =>
        cases exemption with
        | invalidSource =>
            exact absurd hverdict verdict_trial_ne_invalidSource
        | encodingGap => exact .exempt htried hexpects hverdict
    | mismatch =>
        -- A mismatch is no success, so that there is a report on it.
        obtain ⟨report, hreport⟩ := exists_report_of_mismatch hverdict
        rw [hreport]
        exact .failsUnexpectedly htried hexpects hverdict hreport

theorem SkipReason.IsFirst.unique {a b : SkipReason}
    (ha : a.IsFirst policy parser c) (hb : b.IsFirst policy parser c) :
    a = b := by
  have hrank : a.rank = b.rank := by
    rcases Nat.lt_trichotomy a.rank b.rank with hlt | heq | hgt
    · exact absurd ha.1 (hb.2 a hlt)
    · exact heq
    · exact absurd hb.1 (ha.2 b hgt)
  obtain ⟨happlied, -⟩ := ha
  obtain ⟨happlied', -⟩ := hb
  cases a <;> cases b <;> simp_all [SkipReason.rank, SkipReason.Applies]

/-- There is one thing to say of a case. -/
theorem Judges.eq_judge (hj : Judges policy parser printer c j) :
    j = judge policy parser printer c := by
  have hjudged :
      Judges policy parser printer c (judge policy parser printer c) :=
    judges_judge
  generalize judge policy parser printer c = k at hjudged ⊢
  cases hj with
  | skipped hfirst =>
      cases hjudged with
      | skipped hfirst' => rw [hfirst.unique hfirst']
      | _ => simp_all [SkipReason.IsFirst, Policy.Tries]
  | _ =>
      cases hjudged <;> simp_all [SkipReason.IsFirst, Policy.Tries]

end Cases

/-! ## The cases of a run -/

/-- What is said of the case is that it failed. -/
def fails (said : Case → Judgement) (c : Case) : Bool :=
  (said c).status == .failure

/-- The cases up to and including the first failure; all cases where none
fails. -/
def taken (said : Case → Judgement) (cases : List Case) : List Case :=
  cases.take (cases.findIdx (fails said) + 1)

section Runs

variable {said : Case → Judgement} {c : Case} {cases : List Case}

theorem taken_cons_of_fails (hfails : fails said c = true) :
    taken said (c :: cases) = [c] := by
  simp [taken, List.findIdx_cons, hfails]

theorem taken_cons_of_passes (hpasses : fails said c = false) :
    taken said (c :: cases) = c :: taken said cases := by
  simp [taken, List.findIdx_cons, hpasses]

/-! ## Summaries -/

def Failure.of (c : Case) (j : Judgement) : Failure :=
  ⟨c.name, c.group, j.message.getD "", j.report⟩

@[simp] theorem Summary.total_count (s : Summary) (c : Case) (j : Judgement) :
    (s.count c j).total = s.total := by
  unfold count
  cases j.status <;> rfl

@[simp] theorem Summary.executed_count (s : Summary) (c : Case)
    (j : Judgement) :
    (s.count c j).executed = s.executed + 1 := by
  unfold count
  cases j.status <;> rfl

theorem Summary.succeeded_count (s : Summary) (c : Case) (j : Judgement) :
    (s.count c j).succeeded = s.succeeded + if j.status == .success then 1
      else 0 := by
  unfold count
  cases j.status <;> rfl

theorem Summary.skipped_count (s : Summary) (c : Case) (j : Judgement) :
    (s.count c j).skipped = s.skipped + if j.status == .skip then 1
      else 0 := by
  unfold count
  cases j.status <;> rfl

theorem Summary.expectedFailures_count (s : Summary) (c : Case)
    (j : Judgement) :
    (s.count c j).expectedFailures =
      s.expectedFailures + if j.status == .expectedFailure then 1 else 0 := by
  unfold count
  cases j.status <;> rfl

theorem Summary.failure_count (s : Summary) (c : Case) (j : Judgement) :
    (s.count c j).failure =
      if j.status == .failure then some (Failure.of c j) else s.failure := by
  unfold count
  cases j.status <;> rfl

def Summary.countAll (said : Case → Judgement) (s : Summary)
    (cases : List Case) : Summary :=
  cases.foldl (fun s c => s.count c (said c)) s

@[simp] theorem Summary.total_countAll (s : Summary) :
    (s.countAll said cases).total = s.total := by
  induction cases generalizing s with
  | nil => rfl
  | cons c cases ih => exact (ih _).trans (s.total_count c _)

/-- A number that grows by one with the cases of some kind counts these
cases. -/
theorem Summary.counter_countAll {counter : Summary → Nat}
    {kind : Judgement → Bool}
    (hcount : ∀ (s : Summary) (c : Case) (j : Judgement),
      counter (s.count c j) = counter s + if kind j then 1 else 0)
    (s : Summary) :
    counter (s.countAll said cases) = counter s + cases.countP fun c =>
      kind (said c) := by
  induction cases generalizing s with
  | nil => rfl
  | cons c cases ih =>
      have hrest := ih (s.count c (said c))
      rw [hcount, Nat.add_assoc, Nat.add_comm (if kind (said c) then 1 else 0),
        ← List.countP_cons] at hrest
      exact hrest

theorem Summary.executed_countAll (s : Summary) :
    (s.countAll said cases).executed = s.executed + cases.length := by
  have hcounts :=
    @counter_countAll said cases executed (fun _ => true) (fun s c j =>
      by simp) s
  rwa [List.countP_true] at hcounts

/-- A run fails with the first case that does. -/
theorem Summary.failure_countAll_taken (s : Summary) :
    (s.countAll said (taken said cases)).failure =
      ((cases.find? (fails said)).map fun c =>
        Failure.of c (said c)).or s.failure := by
  induction cases generalizing s with
  | nil => rfl
  | cons c cases ih =>
      have hcount := s.failure_count c (said c)
      cases hfails : fails said c with
      | true =>
          rw [taken_cons_of_fails hfails, List.find?_cons_of_pos hfails]
          exact hcount.trans (if_pos hfails)
      | false =>
          rw [taken_cons_of_passes hfails,
            List.find?_cons_of_neg (by simp [hfails])]
          refine (ih (s.count c (said c))).trans ?_
          have hkept : (s.count c (said c)).failure = s.failure :=
            hcount.trans (if_neg (by simpa [fails] using hfails))
          rw [hkept]

/-- Every case has one of the four statuses. -/
theorem length_eq_countP (said : Case → Judgement) (cases : List Case) :
    cases.length = (cases.countP fun c => (said c).status == .success) +
      (cases.countP fun c => (said c).status == .skip) +
      (cases.countP fun c => (said c).status == .expectedFailure) +
      cases.countP (fails said) := by
  have hone : ∀ status : Status, (if status == .success then 1 else 0) +
      (if status == .skip then 1 else 0) +
        (if status == .expectedFailure then 1 else 0) +
      (if status == .failure then 1 else 0) = 1 := by
    rintro (_ | _ | _ | _) <;> rfl
  have hfails : fails said = fun c => (said c).status == .failure := rfl
  rw [hfails]
  induction cases with
  | nil => rfl
  | cons c cases ih =>
      have hc := hone (said c).status
      simp only [List.length_cons, List.countP_cons]
      omega

/-- At most one case of a run fails. -/
theorem countP_fails_taken :
    (taken said cases).countP (fails said) =
      if (cases.find? (fails said)).isSome then 1 else 0 := by
  induction cases with
  | nil => rfl
  | cons c cases ih =>
      cases hfails : fails said c with
      | true => simp [taken_cons_of_fails hfails, hfails]
      | false => simpa [taken_cons_of_passes hfails, hfails] using ih

/-! ## Lines -/

/-- The word for a status at the end of a column of the widest one. -/
def Status.column : Status → String
  | .success => "         Success"
  | .skip => "            Skip"
  | .expectedFailure => "Expected Failure"
  | .failure => "         Failure"

theorem Status.padStart_label (status : Status) :
    String.ofList (padStart labelWidth ' ' status.label.toList) =
      status.column := by
  cases status <;> rfl

/-- A line for a numbered case of so many: the number behind as many zeros as
it has digits less than theirs, the status, the name with the number within
the test, and the message. -/
def Tells (said : Case → Judgement) (total : Nat) (numbered : Case × Nat)
    (line : String) : Prop :=
  ∃ zeros : Nat,
    zeros + (toString numbered.2).length = (toString total).length ∧
    line = String.ofList (List.replicate zeros '0') ++ toString numbered.2 ++
      "/" ++ toString total ++ " " ++ (said numbered.1).status.column ++
      ": " ++ numbered.1.name ++ "[" ++ toString numbered.1.group ++ "]" ++
      ((said numbered.1).message.elim "" fun m => " - " ++ m)

theorem ofList_padStart_decimal (width n : Nat) :
    String.ofList (padStart width '0' (decimal n)) =
      String.ofList (List.replicate (width - (toString n).length) '0') ++
        toString n := by
  rw [padStart, String.ofList_append, ← ofList_decimal, String.length_ofList]

theorem tells_statusLine {index total : Nat} (hle : index ≤ total)
    (c : Case) :
    Tells said total (c, index)
      (statusLine index total (said c).status c (said c).message) := by
  have hwidth := length_toString_le hle
  refine ⟨(toString total).length - (toString index).length,
    Nat.sub_add_cancel hwidth, ?_⟩
  have hnumber := ofList_padStart_decimal (toString total).length index
  have htotal :
      String.ofList (padStart (toString total).length '0' (decimal total)) =
        toString total := by
    rw [ofList_padStart_decimal, Nat.sub_self]
    rfl
  simp only [statusLine, length_decimal_eq, hnumber, htotal,
    Status.padStart_label]
  cases (said c).message <;> simp [Case.key, toString, String.append_assoc]

/-- The report on the case that ends the run, where one does and has a
report. -/
def lastReport? (said : Case → Judgement) (cases : List Case) :
    Option String :=
  (cases.find? (fails said)).bind fun c => (said c).report

/-- Only the last case of a run can have a report. -/
theorem caseLines_taken
    (hquiet : ∀ c, fails said c = false → (said c).report = none)
    (total start : Nat) :
    ((taken said cases).zipIdx start).flatMap (fun numbered =>
        caseLines numbered.2 total numbered.1 (said numbered.1)) =
      ((taken said cases).zipIdx start).map (fun numbered =>
        statusLine numbered.2 total (said numbered.1).status numbered.1
          (said numbered.1).message) ++
        (lastReport? said cases).toList := by
  induction cases generalizing start with
  | nil => rfl
  | cons c cases ih =>
      cases hfails : fails said c with
      | true =>
          simp [taken_cons_of_fails hfails, lastReport?, hfails, caseLines]
      | false =>
          have hreport :
              lastReport? said (c :: cases) = lastReport? said cases := by
            simp [lastReport?, hfails]
          rw [taken_cons_of_passes hfails, List.zipIdx_cons, List.flatMap_cons,
            ih, hreport]
          simp [caseLines, hquiet c hfails]

/-! ## Runs -/

/-- A run counts the cases that it takes and writes their lines. -/
theorem accountFrom_eq (s : Summary) :
    accountFrom s (cases.map fun c => (c, said c)) =
      (s.countAll said (taken said cases),
        ((taken said cases).zipIdx (s.executed + 1)).flatMap fun numbered =>
          caseLines numbered.2 s.total numbered.1 (said numbered.1)) := by
  induction cases generalizing s with
  | nil => rfl
  | cons c cases ih =>
      rw [List.map_cons, accountFrom]
      cases hfails : fails said c with
      | true =>
          rw [if_pos (by simpa [fails] using hfails),
            taken_cons_of_fails hfails]
          simp [Summary.countAll]
      | false =>
          rw [if_neg (by simpa [fails] using hfails),
            taken_cons_of_passes hfails, ih]
          simp [Summary.countAll]

end Runs

/-! ## Text -/

theorem toList_unlines (lines : List String) :
    (unlines lines).toList = lines.flatMap fun line =>
      line.toList ++ ['\n'] := by
  have hfeed : "\n".toList = ['\n'] := rfl
  unfold unlines
  rw [String.toList_join, List.flatMap_map]
  simp only [String.toList_append, hfeed]

/-- The summary and the text of a run are accounts of the cases, of each of
which `said` is what there is to say of it by itself.  The text is a line for
each case that was taken and the report, if there is one, with a line feed
behind each. -/
structure Accounts (policy : Policy) (parser : Parser) (printer : Printer)
    (said : Case → Judgement) (cases : List Case) (s : Summary)
    (text : String) : Prop where
  judges_iff : ∀ c j, Judges policy parser printer c j ↔ j = said c
  total_eq : s.total = cases.length
  executed_eq : s.executed = (taken said cases).length
  succeeded_eq : s.succeeded =
    (taken said cases).countP fun c => (said c).status == .success
  skipped_eq : s.skipped =
    (taken said cases).countP fun c => (said c).status == .skip
  expectedFailures_eq : s.expectedFailures =
    (taken said cases).countP fun c => (said c).status == .expectedFailure
  executed_eq_sum : s.executed =
    s.succeeded + s.skipped + s.expectedFailures +
      if s.failure.isSome then 1 else 0
  text_eq : ∃ lines : List String,
    List.Forall₂ (Tells said cases.length)
      ((taken said cases).zipIdx 1) lines ∧
    text.toList = (lines ++ (lastReport? said cases).toList).flatMap
      fun line => line.toList ++ ['\n']
  report_iff : ∀ c, cases.find? (fails said) = some c →
    ((said c).report.isSome = true ↔ ¬ policy.Expects c)
  failure_eq : s.failure = (cases.find? (fails said)).map fun c =>
    .of c (said c)
  success_iff : s.success = true ↔
    ∀ c ∈ cases, (said c).status ≠ .failure

section Accounts

variable {policy : Policy} {parser : Parser} {printer : Printer}
variable {c : Case} {j : Judgement}

theorem Judges.report_eq_none (hj : Judges policy parser printer c j)
    (hpasses : j.status ≠ .failure) : j.report = none := by
  cases hj with
  | failsUnexpectedly => exact absurd rfl hpasses
  | _ => rfl

/-- There is a report on a failure exactly if a success was expected. -/
theorem Judges.report_iff (hj : Judges policy parser printer c j)
    (hfails : j.status = .failure) :
    j.report.isSome = true ↔ ¬ policy.Expects c := by
  cases hj with
  | succeedsUnexpectedly _ hlisted _ => simpa using hlisted
  | failsUnexpectedly _ hlisted _ _ => simpa using hlisted
  | _ => cases hfails

theorem forall₂_statusLine {said : Case → Judgement} {total : Nat}
    {numbered : List (Case × Nat)} (hle : ∀ n ∈ numbered, n.2 ≤ total) :
    List.Forall₂ (Tells said total) numbered (numbered.map fun n =>
      statusLine n.2 total (said n.1).status n.1 (said n.1).message) := by
  rw [List.forall₂_map_right_iff, List.forall₂_same]
  exact fun n hn => tells_statusLine (hle n hn) n.1

theorem accounts_account {said : Case → Judgement}
    (hjudges : ∀ c j, Judges policy parser printer c j ↔ j = said c)
    (cases : List Case) :
    Accounts policy parser printer said cases
      (account (cases.map fun c => (c, said c))).1
      (unlines (account (cases.map fun c => (c, said c))).2) := by
  have hsaid : ∀ c, Judges policy parser printer c (said c) :=
    fun c => (hjudges c _).mpr rfl
  have hquiet : ∀ c, fails said c = false → (said c).report = none :=
    fun c hpasses =>
      (hsaid c).report_eq_none (by simpa [fails] using hpasses)
  unfold account
  rw [List.length_map, accountFrom_eq, caseLines_taken hquiet]
  let start : Summary := { total := cases.length }
  have hexecuted := @Summary.executed_countAll said (taken said cases) start
  have hcounter := @Summary.counter_countAll said (taken said cases)
  have hsucceeded := hcounter Summary.succeeded_count start
  have hskipped := hcounter Summary.skipped_count start
  have hexpected := hcounter Summary.expectedFailures_count start
  have hfailure := @Summary.failure_countAll_taken said cases start
  simp only [start, Nat.zero_add, Option.or_none]
    at hexecuted hsucceeded hskipped hexpected hfailure
  constructor
  · exact hjudges
  · exact Summary.total_countAll _
  · exact hexecuted
  · exact hsucceeded
  · exact hskipped
  · exact hexpected
  · rw [hexecuted, hsucceeded, hskipped, hexpected, hfailure,
      Option.isSome_map, ← countP_fails_taken]
    exact length_eq_countP said _
  · refine ⟨_, forall₂_statusLine fun n hn => ?_, toList_unlines _⟩
    have hbound := (List.mem_zipIdx hn).2.1
    have htaken : (taken said cases).length ≤ cases.length :=
      List.length_take_le' _ _
    omega
  · intro c hfound
    exact (hsaid c).report_iff (by simpa [fails] using List.find?_some hfound)
  · exact hfailure
  · simp [Summary.success, hfailure, fails]

/-- Whatever the cases, the policy, the parser and the printer are, a run
accounts for its cases. -/
theorem accounts_replay (policy : Policy) (parser : Parser)
    (printer : Printer) (cases : List Case) :
    Accounts policy parser printer (judge policy parser printer) cases
      (replay policy parser printer cases).1
      (unlines (replay policy parser printer cases).2) :=
  accounts_account
    (fun _ _ => ⟨Judges.eq_judge, fun hj => hj ▸ judges_judge⟩) cases

end Accounts

end Reparse.Replay
