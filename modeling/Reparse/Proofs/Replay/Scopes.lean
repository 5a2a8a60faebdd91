import Reparse.Replay.Suite
import Mathlib.Tactic

/-!
# Calls without their scopes

A scope of a test gives its versions to the assertions in it that name none.
When that is resolved, the calls of a test are a plain row of steps, however
deep its scopes lie in each other.  Running the calls comes to performing the
steps: the scopes leave no trace in the recorder.

What the steps record depends on the attributes they start from and on nothing
else that the recorder holds.
-/

namespace Reparse.Replay

/-- A call that is no scope, with the versions of the scope it stands in. -/
inductive Step where
  | parses (written source : String) (versions : Versions)
  | diagnoses
  | sets (name : String) (value : Bool)

mutual

/-- What a call comes to in a scope of these versions. -/
def Call.steps (scope : Versions) : Call → List Step
  | .parses written source versions =>
    [.parses written source (if versions.isEmpty then scope else versions)]
  | .diagnoses _ _ _ => [.diagnoses]
  | .sourceMaps _ _ => []
  | .withVersions versions calls => Call.stepsList versions calls
  | .setAttribute name value => [.sets name value]

def Call.stepsList (scope : Versions) : List Call → List Step
  | [] => []
  | call :: calls => call.steps scope ++ Call.stepsList scope calls

end

def Step.perform (test : String) (r : Recorder) :
    Step → Recorder × Except SuiteError Unit
  | .parses written source versions =>
    match Node.read written.toList with
    | .ok node =>
      let capture : Capture :=
        ⟨⟨some node, none⟩, source, r.attributes, versions⟩
      ({ r with captures := r.captures ++ [capture] }, .ok ())
    | .error e => (r, .error (.invalidNode test written e.message))
  | .diagnoses => ({ r with diagnoses := r.diagnoses + 1 }, .ok ())
  | .sets name value =>
      ({ r with attributes := r.attributes.insert name value }, .ok ())

/-- The recorder after steps in order, up to the first that fails. -/
def Step.performAll (test : String) (r : Recorder) :
    List Step → Recorder × Except SuiteError Unit
  | [] => (r, .ok ())
  | step :: steps =>
    match step.perform test r with
    | (r, .ok _) => Step.performAll test r steps
    | (r, .error e) => (r, .error e)

/-! ## Scopes leave no trace -/

def Recorder.within (r : Recorder) (scope : Versions) : Recorder :=
  { r with ambient := scope }

theorem Recorder.within_within (r : Recorder) (inner outer : Versions) :
    (r.within inner).within outer = r.within outer :=
  rfl

theorem Recorder.within_of_ambient {r : Recorder} {scope : Versions}
    (hscope : r.ambient = scope) :
    r.within scope = r := by
  rw [← hscope]
  rfl

theorem Recorder.run_withVersions (r : Recorder) (versions : Versions)
    (body : List (Assertion SuiteError)) :
    r.run (.withVersions versions body) =
      (((r.within versions).runAll body).1.within r.ambient,
        ((r.within versions).runAll body).2) :=
  rfl

section Performing

variable {test : String} {r : Recorder}

theorem Step.ambient_perform (step : Step) :
    (step.perform test r).1.ambient = r.ambient := by
  cases step with
  | parses written source versions =>
      simp only [Step.perform]
      cases Node.read written.toList <;> rfl
  | diagnoses => rfl
  | sets name value => rfl

theorem Step.perform_within (step : Step) (scope : Versions) :
    step.perform test (r.within scope) =
      ((step.perform test r).1.within scope, (step.perform test r).2) := by
  cases step with
  | parses written source versions =>
      simp only [Step.perform]
      cases Node.read written.toList <;> rfl
  | diagnoses => rfl
  | sets name value => rfl

theorem Step.ambient_performAll (steps : List Step) :
    (performAll test r steps).1.ambient = r.ambient := by
  induction steps generalizing r with
  | nil => rfl
  | cons step steps ih =>
      have hstep : (step.perform test r).1.ambient = r.ambient :=
        step.ambient_perform
      unfold performAll
      cases hresult : step.perform test r with
      | mk q result =>
          rw [hresult] at hstep
          cases result with
          | ok _ => exact ih.trans hstep
          | error e => exact hstep

theorem Step.performAll_within (steps : List Step) (scope : Versions) :
    performAll test (r.within scope) steps =
      ((performAll test r steps).1.within scope,
        (performAll test r steps).2) := by
  induction steps generalizing r with
  | nil => rfl
  | cons step steps ih =>
      unfold performAll
      rw [step.perform_within]
      cases step.perform test r with
      | mk q result =>
          cases result with
          | ok _ => exact ih
          | error e => rfl

theorem Step.performAll_append (steps more : List Step) :
    performAll test r (steps ++ more) =
      match performAll test r steps with
      | (q, .ok _) => performAll test q more
      | (q, .error e) => (q, .error e) := by
  induction steps generalizing r with
  | nil => rfl
  | cons step steps ih =>
      simp only [List.cons_append, performAll]
      cases step.perform test r with
      | mk q result =>
          cases result with
          | ok _ => exact ih
          | error e => rfl

end Performing

mutual

theorem Call.run_toAssertion (test : String) :
    ∀ (call : Call) (r : Recorder),
      r.run (call.toAssertion test) =
        Step.performAll test r (call.steps r.ambient)
  | .parses written source versions, r => by
      simp only [Call.toAssertion, Call.steps, Step.performAll, Step.perform]
      cases Node.read written.toList <;> rfl
  | .diagnoses _ _ _, _ => rfl
  | .sourceMaps _ _, _ => rfl
  | .setAttribute _ _, _ => rfl
  | .withVersions versions calls, r => by
      have hinner : (r.within versions).runAll (Call.toAssertions test calls) =
          Step.performAll test (r.within versions)
            (Call.stepsList versions calls) :=
        Call.runAll_toAssertions test calls (r.within versions)
      rw [Call.toAssertion, Recorder.run_withVersions, hinner,
        Step.performAll_within, Recorder.within_within,
        Recorder.within_of_ambient (Step.ambient_performAll _)]
      rfl

theorem Call.runAll_toAssertions (test : String) :
    ∀ (calls : List Call) (r : Recorder),
      r.runAll (Call.toAssertions test calls) =
        Step.performAll test r (Call.stepsList r.ambient calls)
  | [], _ => rfl
  | call :: calls, r => by
      have hambient :
          (Step.performAll test r (call.steps r.ambient)).1.ambient =
            r.ambient :=
        Step.ambient_performAll _
      simp only [Call.toAssertions, Recorder.runAll, Call.stepsList]
      rw [Step.performAll_append, Call.run_toAssertion test call r]
      cases hresult : Step.performAll test r (call.steps r.ambient) with
      | mk q result =>
          rw [hresult] at hambient
          cases result with
          | ok _ =>
              simp only at hambient ⊢
              rw [← hambient]
              exact Call.runAll_toAssertions test calls q
          | error e => rfl

end

/-! ## What is recorded -/

/-- The captures that steps record from these attributes on: one for each
assertion of parsing. -/
inductive Records : Attributes → List Step → List Capture → Prop where
  | nil {attributes : Attributes} : Records attributes [] []
  | parses {attributes : Attributes} {written source : String}
      {versions : Versions} {node : Node} {steps : List Step}
      {captures : List Capture} (hread : Node.read written.toList = .ok node)
      (hrest : Records attributes steps captures) :
      Records attributes (.parses written source versions :: steps)
        (⟨⟨some node, none⟩, source, attributes, versions⟩ :: captures)
  | diagnoses {attributes : Attributes} {steps : List Step}
      {captures : List Capture} (hrest : Records attributes steps captures) :
      Records attributes (.diagnoses :: steps) captures
  | sets {attributes : Attributes} {name : String} {value : Bool}
      {steps : List Step} {captures : List Capture}
      (hrest : Records (attributes.insert name value) steps captures) :
      Records attributes (.sets name value :: steps) captures

/-- The tree asserted in the step can be read from its notation. -/
def Step.IsReadable : Step → Prop
  | .parses written _ _ => ∃ node, Node.read written.toList = .ok node
  | _ => True

/-- The step ends its test with an error, since the tree asserted in it cannot
be read. -/
def Step.Misreads (test : String) (e : SuiteError) : Step → Prop
  | .parses written _ _ => ∃ reason, Node.read written.toList = .error reason ∧
      e = .invalidNode test written reason.message
  | _ => False

/-- The captures up to the first tree that cannot be read. -/
def Step.captured (attributes : Attributes) : List Step → List Capture
  | [] => []
  | .parses written source versions :: steps =>
    match Node.read written.toList with
    | .ok node =>
        ⟨⟨some node, none⟩, source, attributes, versions⟩ ::
          captured attributes steps
    | .error _ => []
  | .diagnoses :: steps => captured attributes steps
  | .sets name value :: steps => captured (attributes.insert name value) steps

theorem records_captured {steps : List Step} (attributes : Attributes)
    (hreadable : ∀ step ∈ steps, step.IsReadable) :
    Records attributes steps (Step.captured attributes steps) := by
  induction steps generalizing attributes with
  | nil => exact .nil
  | cons step steps ih =>
      obtain ⟨hstep, hsteps⟩ := List.forall_mem_cons.mp hreadable
      cases step with
      | parses written source versions =>
          obtain ⟨node, hread⟩ := hstep
          simp only [Step.captured, hread]
          exact .parses hread (ih attributes hsteps)
      | diagnoses => exact .diagnoses (ih attributes hsteps)
      | sets name value => exact .sets (ih _ hsteps)

theorem Step.Misreads.not_isReadable {test : String} {e : SuiteError}
    {step : Step} (hmisreads : step.Misreads test e) : ¬ step.IsReadable := by
  cases step with
  | parses written source versions =>
      obtain ⟨reason, hread, -⟩ := hmisreads
      rintro ⟨node, hnode⟩
      rw [hread] at hnode
      cases hnode
  | diagnoses => cases hmisreads
  | sets name value => cases hmisreads

/-- How the steps of a test end: all of them were performed, or one of them
failed. -/
def Step.Ends (test : String) (steps : List Step)
    (result : Except SuiteError Unit) : Prop :=
  (result = .ok () ∧ ∀ step ∈ steps, step.IsReadable) ∨
    ∃ e, result = .error e ∧ ∃ step ∈ steps, step.Misreads test e

theorem Step.Ends.cons {test : String} {step : Step} {steps : List Step}
    {result : Except SuiteError Unit} (hends : Ends test steps result)
    (hstep : step.IsReadable) :
    Ends test (step :: steps) result := by
  rcases hends with ⟨hok, hsteps⟩ | ⟨e, he, failing, hmem, hmisreads⟩
  · exact .inl ⟨hok, List.forall_mem_cons.mpr ⟨hstep, hsteps⟩⟩
  · exact .inr ⟨e, he, failing, List.mem_cons_of_mem _ hmem, hmisreads⟩

/-- What performing steps comes to.  Of the recorder only the attributes have a
say in it. -/
theorem Step.performAll_spec (test : String) (r : Recorder)
    (steps : List Step) :
    (performAll test r steps).1.captures =
      r.captures ++ captured r.attributes steps ∧
      (performAll test r steps).1.defaults = r.defaults ∧
      Ends test steps (performAll test r steps).2 := by
  induction steps generalizing r with
  | nil => exact ⟨by simp [performAll, captured], rfl, .inl ⟨rfl, by simp⟩⟩
  | cons step steps ih =>
      cases step with
      | parses written source versions =>
          cases hread : Node.read written.toList with
          | error reason =>
              have hmisreads :
                  Misreads test (.invalidNode test written reason.message)
                    (.parses written source versions) := ⟨reason, hread, rfl⟩
              simp only [performAll, perform, captured, hread, List.append_nil,
                true_and]
              exact .inr ⟨_, rfl, _, List.mem_cons_self, hmisreads⟩
          | ok node =>
              obtain ⟨hcaptures, hdefaults, hends⟩ := ih { r with
                captures :=
                  r.captures ++
                    [⟨⟨some node, none⟩, source, r.attributes, versions⟩] }
              simp only [performAll, perform, captured, hread]
              exact ⟨by simpa using hcaptures, hdefaults,
                hends.cons ⟨node, hread⟩⟩
      | diagnoses =>
          obtain ⟨hcaptures, hdefaults, hends⟩ :=
            ih { r with diagnoses := r.diagnoses + 1 }
          exact ⟨hcaptures, hdefaults, hends.cons trivial⟩
      | sets name value =>
          obtain ⟨hcaptures, hdefaults, hends⟩ :=
            ih { r with attributes := r.attributes.insert name value }
          exact ⟨hcaptures, hdefaults, hends.cons trivial⟩

end Reparse.Replay
