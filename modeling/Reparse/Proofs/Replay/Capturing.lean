import Reparse.Proofs.Replay.Scopes
import Mathlib.Data.List.ReduceOption

/-!
# What a run of calls leaves behind

With its scopes opened, a test is a row of calls in the order in which they are
reached, each with the sets of the scopes around it.  A run carries them out up
to the first whose tree cannot be read, and nothing of the scopes stays behind,
however it ends.

Versions go by scope: a call without versions of its own has those of the
innermost scope, also if that names none, and those in force at the start
outside of all scopes.  Attributes do not: a setting holds for all calls that
are reached after it.
-/

namespace Reparse.Replay

/-- A call that is no scope, with the sets of the scopes around it, the
innermost first. -/
structure Reached where
  scopes : List Versions
  call : Call

mutual

/-- The calls of a call, depth first. -/
def Call.reached (scopes : List Versions) : Call → List Reached
  | .withVersions versions calls => Call.reachedList (versions :: scopes) calls
  | call => [⟨scopes, call⟩]

def Call.reachedList (scopes : List Versions) : List Call → List Reached
  | [] => []
  | call :: calls => call.reached scopes ++ Call.reachedList scopes calls

end

namespace Reached

/-- Why the call cannot be carried out. -/
def failure? (test : String) (reached : Reached) : Option SuiteError :=
  match reached.call with
  | .parses written _ _ =>
    match Node.read written.toList with
    | .ok _ => none
    | .error reason => some (.invalidNode test written reason.message)
  | .diagnoses _ _ _ | .sourceMaps _ _ | .withVersions _ _
  | .setAttribute _ _ => none

/-- What is captured of the call, when these versions are in force at the start
and these attributes at the call. -/
def capture? (ambient : Versions) (attributes : Attributes)
    (reached : Reached) : Option Capture :=
  match reached.call with
  | .parses written source versions =>
    match Node.read written.toList with
    | .ok node => some ⟨⟨some node, none⟩, source, attributes,
        if versions.isEmpty then reached.scopes.headD ambient else versions⟩
    | .error _ => none
  | .diagnoses _ _ _ | .sourceMaps _ _ | .withVersions _ _
  | .setAttribute _ _ => none

def setting? (reached : Reached) : Option (String × Bool) :=
  match reached.call with
  | .setAttribute name value => some (name, value)
  | .parses _ _ _ | .diagnoses _ _ _ | .sourceMaps _ _ | .withVersions _ _ =>
      none

def isDiagnosis (reached : Reached) : Bool :=
  match reached.call with
  | .diagnoses _ _ _ => true
  | .parses _ _ _ | .sourceMaps _ _ | .withVersions _ _ | .setAttribute _ _ =>
      false

/-- The calls in front of the first that cannot be carried out. -/
def executed (test : String) (calls : List Reached) : List Reached :=
  calls.takeWhile fun reached => (reached.failure? test).isNone

def settings (calls : List Reached) : List (String × Bool) :=
  calls.filterMap setting?

end Reached

/-- The attributes after settings in order. -/
def overlaid (attributes : Attributes) (settings : List (String × Bool)) :
    Attributes :=
  settings.foldl (fun attributes setting =>
    attributes.insert setting.1 setting.2) attributes

/-- From `r` on, carrying out the calls as far as they go ends with `after` and
`result`. -/
structure Leaves (test : String) (r : Recorder) (calls : List Reached)
    (after : Recorder) (result : Except SuiteError Unit) : Prop where
  result_eq :
    result =
      ((calls.findSome? (Reached.failure? test)).map .error).getD (.ok ())
  ambient_eq : after.ambient = r.ambient
  defaults_eq : after.defaults = r.defaults
  captures_eq : after.captures = r.captures ++
    ((Reached.executed test calls).mapIdx fun i reached =>
      reached.capture? r.ambient
        (overlaid r.attributes
          (Reached.settings
            ((Reached.executed test calls).take i)))).reduceOption
  attributes_eq : after.attributes =
    overlaid r.attributes (Reached.settings (Reached.executed test calls))
  diagnoses_eq : after.diagnoses =
    r.diagnoses + (Reached.executed test calls).countP Reached.isDiagnosis

/-! ## The attributes in force -/

theorem lookup_entry (key n : String) (v : Bool) (attributes : Attributes) :
    List.lookup key ((n, v) :: attributes) = if key = n then some v
      else attributes.lookup key := by
  rw [List.lookup_cons]
  by_cases hkey : key = n
  · rw [if_pos hkey, beq_iff_eq.mpr hkey]
  · rw [if_neg hkey, beq_eq_false_iff_ne.mpr hkey]

theorem lookup_insert (attributes : Attributes) (name key : String)
    (value : Bool) :
    (attributes.insert name value).lookup key =
      if key = name then some value else attributes.lookup key := by
  induction attributes with
  | nil => exact lookup_entry key name value []
  | cons entry attributes ih =>
      obtain ⟨n, v⟩ := entry
      unfold NameMap.insert
      split
      · exact lookup_entry key name value _
      split
      · next hname =>
          subst hname
          rw [lookup_entry, lookup_entry]
          split <;> rfl
      · next hname =>
          -- The entry in front has another name, so it is found in both maps
          -- or in none.
          rw [lookup_entry, lookup_entry, ih]
          by_cases hentry : key = n
          · have hkey : key ≠ name := fun heq => hname (heq ▸ hentry)
            rw [if_pos hentry, if_neg hkey, if_pos hentry]
          · rw [if_neg hentry, if_neg hentry]

/-- Of the settings of a name the last one counts. -/
theorem lookup_overlaid (attributes : Attributes)
    (settings : List (String × Bool)) (name : String) :
    (overlaid attributes settings).lookup name =
      (settings.reverse.lookup name).or (attributes.lookup name) := by
  induction settings generalizing attributes with
  | nil => rfl
  | cons setting settings ih =>
      obtain ⟨n, value⟩ := setting
      have hstep : overlaid attributes ((n, value) :: settings) =
          overlaid (attributes.insert n value) settings := rfl
      rw [hstep, ih, lookup_insert, List.reverse_cons, List.lookup_append,
        Option.or_assoc, lookup_entry, List.lookup_nil]
      split <;> rfl

/-! ## Steps of the calls that are reached -/

/-- The step that a call comes to. -/
def Reached.step? (ambient : Versions) (reached : Reached) : Option Step :=
  match reached.call with
  | .parses written source versions =>
    some (.parses written source
      (if versions.isEmpty then reached.scopes.headD ambient else versions))
  | .diagnoses _ _ _ => some .diagnoses
  | .sourceMaps _ _ | .withVersions _ _ => none
  | .setAttribute name value => some (.sets name value)

mutual

theorem Call.steps_eq_filterMap (ambient : Versions) :
    ∀ (call : Call) (scopes : List Versions),
      call.steps (scopes.headD ambient) =
        (call.reached scopes).filterMap (Reached.step? ambient)
  | .withVersions versions calls, scopes => by
      rw [Call.steps, Call.reached]
      exact Call.stepsList_eq_filterMap ambient calls (versions :: scopes)
  | .parses _ _ _, _ | .diagnoses _ _ _, _ | .sourceMaps _ _, _
  | .setAttribute _ _, _ => rfl

theorem Call.stepsList_eq_filterMap (ambient : Versions) :
    ∀ (calls : List Call) (scopes : List Versions),
      Call.stepsList (scopes.headD ambient) calls =
        (Call.reachedList scopes calls).filterMap (Reached.step? ambient)
  | [], _ => rfl
  | call :: calls, scopes => by
      rw [Call.stepsList, Call.reachedList, List.filterMap_append,
        Call.steps_eq_filterMap ambient call,
        Call.stepsList_eq_filterMap ambient calls]

end

section Steps

variable {test : String} {r after : Recorder} {reached : Reached}
variable {calls : List Reached}
variable {result : Except SuiteError Unit}

theorem Leaves.nil : Leaves test r [] r (.ok ()) :=
  ⟨rfl, rfl, rfl, (List.append_nil _).symm, rfl, rfl⟩

theorem Leaves.failing {e : SuiteError}
    (hfailure : reached.failure? test = some e) :
    Leaves test r (reached :: calls) r (.error e) := by
  have hexecuted : Reached.executed test (reached :: calls) = [] :=
    List.takeWhile_cons_of_neg (by simp [hfailure])
  refine ⟨by simp [hfailure], rfl, rfl, ?_, ?_, ?_⟩ <;> rw [hexecuted]
  · exact (List.append_nil _).symm
  · rfl
  · rfl

/-- One call more in front, which takes the recorder from `r` to where the
others start. -/
theorem Leaves.cons {q : Recorder} (hmore : Leaves test q calls after result)
    (hfailure : reached.failure? test = none)
    (hambient : q.ambient = r.ambient) (hdefaults : q.defaults = r.defaults)
    (hcaptures : q.captures =
      r.captures ++ (reached.capture? r.ambient r.attributes).toList)
    (hattributes : q.attributes =
      overlaid r.attributes (Reached.settings [reached]))
    (hdiagnoses : q.diagnoses =
      r.diagnoses + [reached].countP Reached.isDiagnosis) :
    Leaves test r (reached :: calls) after result := by
  have hexecuted : Reached.executed test (reached :: calls) =
      reached :: Reached.executed test calls :=
        List.takeWhile_cons_of_pos (by simp [hfailure])
  have hoverlaid :
      ∀ others : List Reached,
        overlaid q.attributes (Reached.settings others) =
      overlaid r.attributes (Reached.settings (reached :: others)) := by
    intro others
    have hsettings : Reached.settings (reached :: others) =
        Reached.settings [reached] ++ Reached.settings others :=
      List.filterMap_append (l := [reached])
    rw [hsettings, hattributes]
    exact List.foldl_append.symm
  refine ⟨?_, hmore.ambient_eq.trans hambient,
    hmore.defaults_eq.trans hdefaults, ?_, ?_, ?_⟩
  · rw [hmore.result_eq, List.findSome?_cons, hfailure]
  · rw [hmore.captures_eq, hexecuted, List.mapIdx_cons, hcaptures, hambient,
      List.append_assoc]
    simp only [hoverlaid, List.take_succ_cons]
    have hfirst : overlaid r.attributes (Reached.settings
        ((reached :: Reached.executed test calls).take 0)) = r.attributes :=
          rfl
    rw [hfirst]
    cases reached.capture? r.ambient r.attributes with
    | none => rfl
    | some capture => rfl
  · rw [hmore.attributes_eq, hexecuted, hoverlaid]
  · rw [hmore.diagnoses_eq, hexecuted, hdiagnoses, Nat.add_assoc,
      ← List.countP_append]
    rfl

theorem leaves_performAll (calls : List Reached) (r : Recorder) :
    Leaves test r calls
      (Step.performAll test r (calls.filterMap (Reached.step? r.ambient))).1
      (Step.performAll test r
        (calls.filterMap (Reached.step? r.ambient))).2 := by
  induction calls generalizing r with
  | nil => exact .nil
  | cons reached calls ih =>
      obtain ⟨scopes, call⟩ := reached
      have hnone : r.captures = r.captures ++ (none : Option Capture).toList :=
        (List.append_nil _).symm
      cases call with
      | parses written source versions =>
          simp only [List.filterMap_cons, Reached.step?, Step.performAll,
            Step.perform]
          cases hread : Node.read written.toList with
          | error reason =>
              exact .failing (by simp only [Reached.failure?, hread])
          | ok node =>
              refine (ih { r with captures := r.captures ++ [_] }).cons ?_ rfl
                rfl ?_ rfl rfl
              · simp only [Reached.failure?, hread]
              · simp only [Reached.capture?, hread, Option.toList]
      | diagnoses diagnostic source versions =>
          exact (ih { r with diagnoses := r.diagnoses + 1 }).cons rfl rfl rfl
            hnone rfl rfl
      | sourceMaps source versions =>
          exact (ih r).cons rfl rfl rfl hnone rfl rfl
      | withVersions versions body =>
          exact (ih r).cons rfl rfl rfl hnone rfl rfl
      | setAttribute name value =>
          exact (ih { r with attributes :=
            r.attributes.insert name value }).cons rfl rfl rfl hnone rfl rfl

end Steps

/-- A run of a test leaves what its calls in depth-first order leave, with the
scope that it found. -/
theorem leaves_run (test : Test) (r : Recorder) :
    Leaves test.name r (Call.reachedList [] test.calls) (test.run r).1
      (test.run r).2 ∧
      ∀ settings name, (overlaid r.attributes settings).lookup name =
        (settings.reverse.lookup name).or (r.attributes.lookup name) := by
  refine ⟨?_, fun settings name => lookup_overlaid r.attributes settings name⟩
  have hsteps : Call.stepsList r.ambient test.calls =
      (Call.reachedList [] test.calls).filterMap (Reached.step? r.ambient) :=
    Call.stepsList_eq_filterMap r.ambient test.calls []
  rw [Test.run, Call.runAll_toAssertions, hsteps]
  exact leaves_performAll _ r

end Reparse.Replay
