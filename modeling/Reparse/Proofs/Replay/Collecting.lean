import Reparse.Proofs.Replay.Scopes
import Reparse.Replay.Case
import Mathlib.Data.List.Sort
import Mathlib.Data.String.Basic
import Mathlib.Tactic

/-!
# The cases of a suite

One recorder serves all tests of a suite and is started anew before each, so
the captures of a test are those of its own steps, from the default attributes
and without a scope.  The names of the tests are different and the captures of
a test are numbered, so the cases have different keys and sorting puts them
into one order, in whatever order the tests were run.
-/

namespace Reparse.Replay

open scoped List

/-- The calls of a test without their scopes. -/
def Test.steps (test : Test) : List Step :=
  Call.stepsList [] test.calls

/-- The cases of a test: the captures of its own steps, numbered. -/
def casesFrom (defaults : Attributes) (test : Test) : List Case :=
  casesOf test.name (Step.captured defaults test.steps)

/-! ## Suites of one document -/

namespace Suite

theorem isSome_find?_iff {suite : Suite} {name : String} :
    (suite.find? name).isSome = true ↔ name ∈ suite.names := by
  simp [find?, names]

theorem foldlM_addTest {tests : List Test} {suite : Suite}
    (hnodup : (suite.names ++ tests.map Test.name).Nodup) :
    tests.foldlM addTest suite =
      .ok { suite with tests := suite.tests ++ tests } := by
  induction tests generalizing suite with
  | nil => simp [pure, Except.pure]
  | cons test tests ih =>
      have hnew : ¬ (suite.find? test.name).isSome = true := by
        rw [isSome_find?_iff]
        intro hmem
        exact List.disjoint_of_nodup_append hnodup hmem (by simp)
      have hrest : (names { suite with tests := suite.tests ++ [test] } ++
          tests.map Test.name).Nodup := by
        simpa [names] using hnodup
      simp only [List.foldlM_cons, addTest, if_neg hnew, bind, Except.bind]
      rw [ih hrest]
      simp

theorem nodup_of_foldlM_addTest {tests : List Test} {suite result : Suite}
    (hsuite : suite.names.Nodup)
    (hadd : tests.foldlM addTest suite = .ok result) :
    (suite.names ++ tests.map Test.name).Nodup := by
  induction tests generalizing suite with
  | nil => simpa using hsuite
  | cons test tests ih =>
      by_cases hold : (suite.find? test.name).isSome = true
      · simp [List.foldlM_cons, addTest, hold, bind, Except.bind] at hadd
      · have hnext :
            (names { suite with tests := suite.tests ++ [test] }).Nodup := by
          rw [isSome_find?_iff] at hold
          simp only [names, List.map_append, List.map_singleton]
          exact (List.perm_append_singleton _ _).nodup_iff.mpr
            (List.nodup_cons.mpr ⟨hold, hsuite⟩)
        have hadd' :
            tests.foldlM addTest
              { suite with tests := suite.tests ++ [test] } =
            .ok result := by
          simpa [List.foldlM_cons, addTest, hold, bind, Except.bind] using hadd
        simpa [names] using ih hnext hadd'

/-- A document makes a suite when the names of its tests are different. -/
theorem ofDocuments_eq_ok_iff {version : String} {tests : List Test}
    {suite : Suite} :
    ofDocuments [⟨version, tests⟩] = .ok suite ↔
      (tests.map Test.name).Nodup ∧ suite = ⟨[version], tests⟩ := by
  have hdocument : ofDocuments [⟨version, tests⟩] =
      tests.foldlM addTest ⟨[version], []⟩ := by
    simp only [ofDocuments, List.foldlM_cons, List.foldlM_nil, addDocument,
      empty, List.contains_nil, Bool.false_eq_true, if_false, List.nil_append]
    cases tests.foldlM addTest ⟨[version], []⟩ <;> rfl
  rw [hdocument]
  constructor
  · intro hadd
    have hnodup : (tests.map Test.name).Nodup := by
      simpa [names] using nodup_of_foldlM_addTest (by simp [names]) hadd
    rw [foldlM_addTest (by simpa [names] using hnodup)] at hadd
    cases hadd
    exact ⟨hnodup, rfl⟩
  · rintro ⟨hnodup, rfl⟩
    rw [foldlM_addTest (by simpa [names] using hnodup)]
    rfl

theorem find?_of_mem {version : String} {tests : List Test} {test : Test}
    (hnodup : (tests.map Test.name).Nodup) (htest : test ∈ tests) :
    find? ⟨[version], tests⟩ test.name = some test := by
  induction tests with
  | nil => cases htest
  | cons first tests ih =>
      obtain ⟨hfirst, hrest⟩ := List.nodup_cons.mp hnodup
      rcases List.mem_cons.mp htest with rfl | htest
      · simp [find?]
      · have hne : first.name ≠ test.name :=
          fun heq => hfirst (heq ▸ List.mem_map_of_mem htest)
        simpa [find?, hne] using ih hrest htest

/-! ## One recorder for all tests -/

theorem runTest_spec {suite : Suite} {test : Test}
    (hfind : suite.find? test.name = some test) (r : Recorder) :
    (suite.runTest test.name r.beginTest).1.captures =
      Step.captured r.defaults test.steps ∧
      (suite.runTest test.name r.beginTest).1.defaults = r.defaults ∧
      Step.Ends test.name test.steps
        (suite.runTest test.name r.beginTest).2 := by
  have hrun : suite.runTest test.name r.beginTest =
      Step.performAll test.name r.beginTest test.steps := by
    simp only [runTest, hfind]
    exact Call.runAll_toAssertions test.name test.calls r.beginTest
  rw [hrun]
  exact Step.performAll_spec test.name r.beginTest test.steps

/-- What the recorder holds when a test begins has no part in the cases that
follow. -/
theorem record_spec {suite : Suite} {tests : List Test}
    (hfind : ∀ test ∈ tests, suite.find? test.name = some test)
    (r : Recorder) :
    (suite.record r (tests.map Test.name) =
      .ok (tests.flatMap (casesFrom r.defaults)) ∧
        ∀ test ∈ tests, ∀ step ∈ test.steps, step.IsReadable) ∨
      ∃ e, suite.record r (tests.map Test.name) = .error e ∧
        ∃ test ∈ tests, ∃ step ∈ test.steps, step.Misreads test.name e := by
  induction tests generalizing r with
  | nil => exact .inl ⟨rfl, by simp⟩
  | cons test tests ih =>
      obtain ⟨htest, htests⟩ := List.forall_mem_cons.mp hfind
      obtain ⟨hcaptures, hdefaults, hends⟩ := runTest_spec htest r
      simp only [List.map_cons, record]
      cases hrun : suite.runTest test.name r.beginTest with
      | mk q result =>
          rw [hrun] at hcaptures hdefaults hends
          rcases hends with ⟨hok, hreadable⟩ | ⟨e, he, hfails⟩
          · obtain rfl : result = .ok () := hok
            rcases ih htests q.takeCaptures.2 with
              ⟨hrest, hall⟩ | ⟨e, he, other, hother, hfails⟩
            · refine .inl ⟨?_, List.forall_mem_cons.mpr ⟨hreadable, hall⟩⟩
              simp only at hcaptures hdefaults ⊢
              rw [hrest]
              simp [Recorder.takeCaptures, Except.map, casesFrom, hcaptures,
                hdefaults]
            · refine .inr ⟨e, ?_, other, List.mem_cons_of_mem _ hother, hfails⟩
              simp only
              rw [he]
              rfl
          · obtain rfl : result = .error e := he
            exact .inr ⟨e, rfl, test, List.mem_cons_self, hfails⟩

end Suite

/-! ## Sorted cases -/

/-- The order of cases: by the name of the test, then by number. -/
def Case.Before (a b : Case) : Prop :=
  a.name < b.name ∨ a.name = b.name ∧ a.group < b.group

namespace Case

instance : Std.Irrefl Before where
  irrefl a := by
    rintro (hlt | ⟨-, hlt⟩)
    · exact lt_irrefl _ hlt
    · exact lt_irrefl _ hlt

instance : Std.Antisymm Before where
  antisymm a b := by
    rintro (hab | ⟨hname, hab⟩) (hba | ⟨hname', hba⟩)
    · exact absurd (lt_trans hab hba) (lt_irrefl _)
    · exact absurd (hname' ▸ hab) (lt_irrefl _)
    · exact absurd (hname ▸ hba) (lt_irrefl _)
    · exact absurd (lt_trans hab hba) (lt_irrefl _)

theorem le_iff {a b : Case} :
    a.le b = true ↔ a.name < b.name ∨ a.name = b.name ∧ a.group ≤ b.group := by
  simp [Case.le]

theorem le_trans (a b c : Case) (hab : a.le b = true) (hbc : b.le c = true) :
    a.le c = true := by
  rw [le_iff] at *
  rcases hab with hab | ⟨hname, hab⟩
  · rcases hbc with hbc | ⟨hname', -⟩
    · exact .inl (lt_trans hab hbc)
    · exact .inl (hname' ▸ hab)
  · rw [hname]
    rcases hbc with hbc | ⟨hname', hbc⟩
    · exact .inl hbc
    · exact .inr ⟨hname', Nat.le_trans hab hbc⟩

theorem le_total (a b : Case) : (a.le b || b.le a) = true := by
  rw [Bool.or_eq_true, le_iff, le_iff]
  rcases lt_trichotomy a.name b.name with hlt | heq | hgt
  · exact .inl (.inl hlt)
  · rcases Nat.le_total a.group b.group with hle | hle
    · exact .inl (.inr ⟨heq, hle⟩)
    · exact .inr (.inr ⟨heq.symm, hle⟩)
  · exact .inr (.inl hgt)

def Distinct (cases : List Case) : Prop :=
  cases.Pairwise fun a b => a.name ≠ b.name ∨ a.group ≠ b.group

theorem pairwise_mergeSort {cases : List Case} (hdistinct : Distinct cases) :
    (cases.mergeSort Case.le).Pairwise Before := by
  have hsorted := List.pairwise_mergeSort le_trans le_total cases
  have hkeys : Distinct (cases.mergeSort Case.le) := by
    refine (List.mergeSort_perm cases Case.le).symm.pairwise hdistinct ?_
    rintro a b (hname | hgroup)
    · exact .inl hname.symm
    · exact .inr hgroup.symm
  refine List.Pairwise.imp₂ ?_ hsorted hkeys
  intro a b hle hne
  rcases le_iff.mp hle with hlt | ⟨hname, hgroup⟩
  · exact .inl hlt
  · refine .inr ⟨hname, lt_of_le_of_ne hgroup ?_⟩
    rcases hne with hne | hne
    · exact absurd hname hne
    · exact hne

end Case

section Sorted

variable {defaults : Attributes} {tests : List Test}

theorem casesOf_eq_mapIdx (name : String) (captures : List Capture) :
    casesOf name captures = captures.mapIdx fun group capture =>
      ⟨name, group, capture⟩ := by
  apply List.ext_getElem
  · simp [casesOf]
  · intro group hleft hright
    simp [casesOf]

theorem name_of_mem_casesFrom {test : Test} {c : Case}
    (hc : c ∈ casesFrom defaults test) :
    c.name = test.name := by
  simp only [casesFrom, casesOf, List.mem_map] at hc
  obtain ⟨pair, -, rfl⟩ := hc
  rfl

theorem pairwise_casesFrom (defaults : Attributes) (test : Test) :
    (casesFrom defaults test).Pairwise Case.Before := by
  unfold casesFrom
  rw [casesOf_eq_mapIdx, List.pairwise_iff_getElem]
  intro i j hi hj hij
  simp only [List.getElem_mapIdx]
  exact .inr ⟨rfl, hij⟩

theorem distinct_flatMap (hnodup : (tests.map Test.name).Nodup) :
    Case.Distinct (tests.flatMap (casesFrom defaults)) := by
  refine List.pairwise_flatMap.mpr ⟨?_, ?_⟩
  · intro test _
    refine (pairwise_casesFrom defaults test).imp ?_
    rintro a b (hlt | ⟨-, hlt⟩)
    · exact .inl (ne_of_lt hlt)
    · exact .inr (ne_of_lt hlt)
  · refine (List.pairwise_map.mp hnodup).imp ?_
    intro first second hne a ha b hb
    rw [name_of_mem_casesFrom ha, name_of_mem_casesFrom hb]
    exact .inl hne

/-- The cases of one test, picked from the sorted cases of all. -/
theorem filter_mergeSort (hnodup : (tests.map Test.name).Nodup) {test : Test}
    (htest : test ∈ tests) :
    ((tests.flatMap (casesFrom defaults)).mergeSort Case.le).filter
      (·.name == test.name) =
      casesFrom defaults test := by
  have hdistinct : Case.Distinct (tests.flatMap (casesFrom defaults)) :=
    distinct_flatMap hnodup
  have hsorted := Case.pairwise_mergeSort hdistinct
  refine List.Pairwise.eq_of_mem_iff (hsorted.filter _)
    (pairwise_casesFrom defaults test) ?_
  intro c
  rw [List.mem_filter, List.mem_mergeSort, List.mem_flatMap, beq_iff_eq]
  constructor
  · rintro ⟨⟨other, hother, hc⟩, hname⟩
    have hsame : other.name = test.name :=
      (name_of_mem_casesFrom hc).symm.trans hname
    rwa [← List.inj_on_of_nodup_map hnodup hother htest hsame]
  · intro hc
    exact ⟨⟨test, htest, hc⟩, name_of_mem_casesFrom hc⟩

theorem mergeSort_eq_of_perm {others : List Test}
    (hnodup : (tests.map Test.name).Nodup) (hperm : tests ~ others) :
    (tests.flatMap (casesFrom defaults)).mergeSort Case.le =
      (others.flatMap (casesFrom defaults)).mergeSort Case.le := by
  have hothers : (others.map Test.name).Nodup :=
    (hperm.map Test.name).nodup_iff.mp hnodup
  refine List.Pairwise.eq_of_mem_iff
    (Case.pairwise_mergeSort (distinct_flatMap hnodup))
    (Case.pairwise_mergeSort (distinct_flatMap hothers)) ?_
  intro c
  simp only [List.mem_mergeSort, List.mem_flatMap, hperm.mem_iff]

end Sorted

/-- The cases that a suite of these tests comes to. -/
structure Collected (defaults : Attributes) (tests : List Test)
    (cases : List Case) : Prop where
  increasing : cases.Pairwise Case.Before
  named : ∀ c ∈ cases, ∃ test ∈ tests, c.name = test.name
  /-- The cases of a test are the captures that its own steps record from the
  defaults on, one for each assertion of parsing, numbered from zero. -/
  of_test : ∀ test ∈ tests, ∃ captures, Records defaults test.steps captures ∧
    cases.filter (·.name == test.name) =
      captures.mapIdx fun group capture => ⟨test.name, group, capture⟩

theorem collected_mergeSort {defaults : Attributes} {tests : List Test}
    (hnodup : (tests.map Test.name).Nodup)
    (hreadable : ∀ test ∈ tests, ∀ step ∈ test.steps, step.IsReadable) :
    Collected defaults tests
      ((tests.flatMap (casesFrom defaults)).mergeSort Case.le) := by
  constructor
  · exact Case.pairwise_mergeSort (distinct_flatMap hnodup)
  · intro c hc
    rw [List.mem_mergeSort, List.mem_flatMap] at hc
    obtain ⟨test, htest, hc⟩ := hc
    exact ⟨test, htest, name_of_mem_casesFrom hc⟩
  · intro test htest
    refine ⟨_, records_captured defaults (hreadable test htest), ?_⟩
    rw [filter_mergeSort hnodup htest, casesFrom, casesOf_eq_mapIdx]

/-- A suite whose tests are collected to an error: some tree asserted in one of
them cannot be read. -/
def Misread (tests : List Test) (e : SuiteError) : Prop :=
  ∃ test ∈ tests, ∃ step ∈ test.steps, step.Misreads test.name e

theorem collect_spec (version : String) {tests : List Test}
    (defaults : Attributes) (hnodup : (tests.map Test.name).Nodup) :
    (Suite.collect ⟨[version], tests⟩ defaults =
          .ok ((tests.flatMap (casesFrom defaults)).mergeSort Case.le) ∧
        ∀ test ∈ tests, ∀ step ∈ test.steps, step.IsReadable) ∨
      ∃ e, Suite.collect ⟨[version], tests⟩ defaults = .error e ∧
        Misread tests e := by
  have hfind :
      ∀ test ∈ tests, Suite.find? ⟨[version], tests⟩ test.name = some test :=
    fun test htest => Suite.find?_of_mem hnodup htest
  unfold Suite.collect Suite.collectNamed Suite.names
  rcases Suite.record_spec hfind (Recorder.new defaults) with
    ⟨hrecord, hall⟩ | ⟨e, he, hmisread⟩
  · rw [hrecord]
    exact .inl ⟨rfl, hall⟩
  · rw [he]
    exact .inr ⟨e, rfl, hmisread⟩

theorem Misread.not_readable {tests : List Test} {e : SuiteError}
    (hmisread : Misread tests e) :
    ¬ ∀ test ∈ tests, ∀ step ∈ test.steps, step.IsReadable := by
  intro hall
  obtain ⟨test, htest, step, hstep, hmisreads⟩ := hmisread
  exact hmisreads.not_isReadable (hall test htest step hstep)

theorem Misread.ne_unknownTest {tests : List Test} {e : SuiteError}
    (hmisread : Misread tests e) (name : String) : e ≠ .unknownTest name := by
  obtain ⟨test, -, step, -, hmisreads⟩ := hmisread
  cases step with
  | parses written source versions =>
      obtain ⟨reason, -, rfl⟩ := hmisreads
      simp
  | diagnoses => cases hmisreads
  | sets _ _ => cases hmisreads

/-- The order of the tests of a document has no part in what is collected: the
same cases, or an error each time, which is never that of an unknown test. -/
theorem collect_perm {version : String} {tests others : List Test}
    (defaults : Attributes) {suite : Suite} (hperm : tests ~ others)
    (hsuite : Suite.ofDocuments [⟨version, tests⟩] = .ok suite) :
    ∃ other, Suite.ofDocuments [⟨version, others⟩] = .ok other ∧
      ((∃ cases, suite.collect defaults = .ok cases ∧
        other.collect defaults = .ok cases ∧
          Collected defaults tests cases) ∨
        ∃ e e', suite.collect defaults = .error e ∧
          other.collect defaults = .error e' ∧
          Misread tests e ∧ Misread tests e' ∧
          ∀ name, e ≠ .unknownTest name ∧ e' ≠ .unknownTest name) := by
  obtain ⟨hnodup, rfl⟩ := Suite.ofDocuments_eq_ok_iff.mp hsuite
  have hothers : (others.map Test.name).Nodup :=
    (hperm.map Test.name).nodup_iff.mp hnodup
  refine ⟨⟨[version], others⟩,
    Suite.ofDocuments_eq_ok_iff.mpr ⟨hothers, rfl⟩, ?_⟩
  have hsame : ∀ {e}, Misread others e → Misread tests e := by
    rintro e ⟨test, htest, hsteps⟩
    exact ⟨test, hperm.mem_iff.mpr htest, hsteps⟩
  rcases collect_spec version defaults hnodup with
    ⟨hcollect, hall⟩ | ⟨e, he, hmisread⟩
  · refine .inl ⟨_, hcollect, ?_, collected_mergeSort hnodup hall⟩
    rcases collect_spec version defaults hothers with
      ⟨hother, -⟩ | ⟨e, -, hmisread⟩
    · rw [hother, mergeSort_eq_of_perm hnodup hperm]
    · exact absurd hall (hsame hmisread).not_readable
  · right
    rcases collect_spec version defaults hothers with
      ⟨-, hall⟩ | ⟨e', he', hmisread'⟩
    · refine absurd ?_ hmisread.not_readable
      intro test htest
      exact hall test (hperm.mem_iff.mp htest)
    · exact ⟨e, e', he, he', hmisread, hsame hmisread', fun name =>
        ⟨hmisread.ne_unknownTest name, hmisread'.ne_unknownTest name⟩⟩

section NestedScopes

/-- Two assertions in scopes within each other, with an attribute set between
them. -/
def scopedTest : Test where
  name := "scoped"
  calls := [
    .withVersions ["1.8"] [
      .parses "(int 1)" "1" [],
      .setAttribute "frozen" true,
      .withVersions ["3.4"] [.parses "(int 2)" "2" []]]]

def plainTest : Test where
  name := "plain"
  calls := [.parses "(int 3)" "3" []]

theorem collect_swapped :
    ∃ other, Suite.ofDocuments [⟨"1.8", [plainTest, scopedTest]⟩] = .ok other ∧
      ∃ cases, Suite.collect ⟨["1.8"], [scopedTest, plainTest]⟩ [] =
        .ok cases ∧
        other.collect [] = .ok cases ∧
          Collected [] [scopedTest, plainTest] cases := by
  have hsuite : Suite.ofDocuments [⟨"1.8", [scopedTest, plainTest]⟩] =
      .ok ⟨["1.8"], [scopedTest, plainTest]⟩ :=
    Suite.ofDocuments_eq_ok_iff.mpr ⟨by decide, rfl⟩
  have hcollects :
      (Suite.collect ⟨["1.8"], [scopedTest, plainTest]⟩ []).toOption.isSome =
        true := by
    decide +kernel
  obtain ⟨other, hother, hcases | ⟨e, e', he, -⟩⟩ :=
    collect_perm [] (List.Perm.swap plainTest scopedTest []) hsuite
  · exact ⟨other, hother, hcases⟩
  · rw [he] at hcollects
    cases hcollects

end NestedScopes

end Reparse.Replay
