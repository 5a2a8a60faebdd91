import Reparse.Toy.Token

/-!
# Operations that may have no result

An element of a list is taken at an index, a list is cut between two bounds,
and a number is subtracted from another.  Each of these has a result only where
its arguments are in range.  A loop goes round as often as its condition holds,
which need not come to an end.

A computation here has a state, which also stays when a fault is reported.  It
is stuck where an operation has no result, and it is spent when it goes round
more often than it was granted.
-/

namespace Reparse.Toy

/-- How a computation ends. -/
inductive Outcome (σ α : Type) where
  | done (value : α) (state : σ)
  | fault (fault : Fault) (state : σ)
  /-- An operation has no result. -/
  | stuck
  /-- There were more rounds than granted. -/
  | spent

def Checked (σ α : Type) : Type :=
  σ → Outcome σ α

/-- What is returned or reported, unless the computation is stuck or spent. -/
def Outcome.answer? {σ α : Type} : Outcome σ α → Option (Except Fault α)
  | done value _ => some (.ok value)
  | fault error _ => some (.error error)
  | stuck | spent => none

/-- The run ends as the result says: with what goes with it, or with its fault
in a state of a kind. -/
def Outcome.EndsAs {σ α ρ : Type} (failing : σ → Prop)
    (goes : α → σ → ρ → Prop) (outcome : Outcome σ α) : Except Fault ρ → Prop
  | .ok result =>
      ∃ value state, outcome = .done value state ∧ goes value state result
  | .error error => ∃ state, outcome = .fault error state ∧ failing state

namespace Checked

variable {σ α β : Type}

instance : Monad (Checked σ) where
  pure value := fun state => .done value state
  bind run next := fun state =>
    match run state with
    | .done value state => next value state
    | .fault fault state => .fault fault state
    | .stuck => .stuck
    | .spent => .spent

/-! ## Operations -/

def state : Checked σ σ :=
  fun state => .done state state

def update (f : σ → σ) : Checked σ Unit :=
  fun state => .done () (f state)

def report (fault : Fault) : Checked σ α :=
  fun state => .fault fault state

def stuck : Checked σ α :=
  fun _ => .stuck

def spent : Checked σ α :=
  fun _ => .spent

/-- The first number less the second, which is not above it. -/
def difference (m n : Nat) : Checked σ Nat :=
  if n ≤ m then pure (m - n) else stuck

def elementAt (xs : List α) (i : Nat) : Checked σ α :=
  match xs[i]? with
  | some x => pure x
  | none => stuck

/-- The elements from the first bound up to the second. -/
def slice (xs : List α) (start stop : Nat) : Checked σ (List α) :=
  if start ≤ stop ∧ stop ≤ xs.length then pure ((xs.take stop).drop start)
  else stuck

/-- The negative of an integer that is not the least one. -/
def negative (value : Int64) : Checked σ Int64 :=
  if value = Int64.minValue then stuck else pure (-value)

/-- Goes on after a fault, with the fault at hand. -/
def attempt (run : Checked σ α) : Checked σ (Except Fault α) := fun state =>
  match run state with
  | .done value state => .done (.ok value) state
  | .fault fault state => .done (.error fault) state
  | .stuck => .stuck
  | .spent => .spent

def settle : Except Fault α → Checked σ α
  | .ok value => pure value
  | .error fault => report fault

/-! ## How operations end -/

variable {run : Checked σ α} {next : α → Checked σ β} {s t : σ} {a : α}
variable {fault : Fault}

@[simp] theorem pure_apply : (pure a : Checked σ α) s = .done a s := rfl

@[simp] theorem state_apply : (state : Checked σ σ) s = .done s s := rfl

@[simp] theorem update_apply {f : σ → σ} : update f s = .done () (f s) := rfl

@[simp] theorem report_apply :
    (report fault : Checked σ α) s = .fault fault s := rfl

theorem bind_apply : (run >>= next) s =
    match run s with
    | .done value state => next value state
    | .fault fault state => .fault fault state
    | .stuck => .stuck
    | .spent => .spent := rfl

theorem bind_of_done (hrun : run s = .done a t) :
    (run >>= next) s = next a t := by
  rw [bind_apply, hrun]

theorem bind_of_fault (hrun : run s = .fault fault t) :
    (run >>= next) s = .fault fault t := by
  rw [bind_apply, hrun]

theorem attempt_of_done (hrun : run s = .done a t) :
    attempt run s = .done (.ok a) t := by
  rw [attempt, hrun]

theorem attempt_of_fault (hrun : run s = .fault fault t) :
    attempt run s = .done (.error fault) t := by
  rw [attempt, hrun]

theorem difference_apply {m n : Nat} (hle : n ≤ m) :
    (difference m n : Checked σ Nat) s = .done (m - n) s := by
  rw [difference, if_pos hle]
  rfl

theorem elementAt_apply {xs : List α} {i : Nat} (hx : xs[i]? = some a) :
    (elementAt xs i : Checked σ α) s = .done a s := by
  rw [elementAt, hx]
  rfl

theorem slice_apply {xs : List α} {start stop : Nat} (hle : start ≤ stop)
    (hstop : stop ≤ xs.length) :
    (slice xs start stop : Checked σ (List α)) s =
      .done ((xs.take stop).drop start) s := by
  rw [slice, if_pos ⟨hle, hstop⟩]
  rfl

theorem negative_apply {value : Int64} (hvalue : value ≠ Int64.minValue) :
    (negative value : Checked σ Int64) s = .done (-value) s := by
  rw [negative, if_neg hvalue]
  rfl

/-! ## Runs against results -/

section Results

variable {ρ ρ' : Type} {failing : σ → Prop} {goes : α → σ → ρ → Prop}
variable {goes' : β → σ → ρ' → Prop}
variable {result : Except Fault ρ}

theorem endsAs_bind {more : ρ → Except Fault ρ'}
    (hrun : (run s).EndsAs failing goes result)
    (hnext : ∀ a t out, result = .ok out → goes a t out →
      (next a t).EndsAs failing goes' (more out)) :
    ((run >>= next) s).EndsAs failing goes' (result >>= more) := by
  cases result with
  | error fault =>
      obtain ⟨t, hfault, hfailing⟩ := hrun
      exact ⟨t, bind_of_fault hfault, hfailing⟩
  | ok out =>
      obtain ⟨a, t, hdone, hgoes⟩ := hrun
      rw [bind_of_done hdone]
      exact hnext a t out rfl hgoes

theorem endsAs_map {f : α → β} {g : ρ → ρ'}
    (hrun : (run s).EndsAs failing goes result)
    (hgoes : ∀ a t out, goes a t out → goes' (f a) t (g out)) :
    ((do let a ← run; pure (f a) : Checked σ β) s).EndsAs failing goes'
      (result.map g) :=
  endsAs_bind hrun fun a t out _ hout => ⟨f a, t, rfl, hgoes a t out hout⟩

theorem answer?_of_endsAs {outcome : Outcome σ α} {f : ρ → α}
    (houtcome : outcome.EndsAs failing goes result)
    (hvalue : ∀ a t out, goes a t out → a = f out) :
    outcome.answer? = some (result.map f) := by
  cases result with
  | error error =>
      obtain ⟨t, rfl, -⟩ := houtcome
      rfl
  | ok out =>
      obtain ⟨a, t, rfl, hgoes⟩ := houtcome
      exact congrArg (fun a => some (Except.ok a)) (hvalue a t out hgoes)

end Results

end Checked

end Reparse.Toy
