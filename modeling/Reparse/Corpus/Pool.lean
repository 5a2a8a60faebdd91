import Reparse.Corpus.Tally

/-!
# Pools of workers

Workers take items from a shared list until it is used up or the tally asks for
a stop.  Each repeats four steps: it looks whether to stop, takes the next
item, checks it and hands in the finding.  Any worker may make the next step,
so a run is described by the list of the workers that step.

With a single worker there is only one run, and `checkAll` gives its result.
-/

namespace Reparse.Corpus

/-- Where a worker is in its round. -/
inductive Phase where
  | looking
  | taking
  | checking (item : Nat)
  | answering (item : Nat) (finding : Finding)
  | gone
  deriving DecidableEq

/-- The number of items taken, the findings handed in and the workers. -/
structure Pool where
  taken : Nat
  answers : List (Nat × Finding)
  workers : List Phase
  deriving DecidableEq

namespace Pool

/-- The number of workers for a number of items: at least one, and no more than
there are items. -/
def crew (workers items : Nat) : Nat :=
  min (max workers 1) (max items 1)

def start (workers items : Nat) : Pool :=
  ⟨0, [], List.replicate (crew workers items) .looking⟩

def tally (p : Pool) : Tally :=
  p.answers.foldl (fun t answer => t.add answer.2) .empty

def move (p : Pool) (worker : Nat) (phase : Phase) : Pool :=
  { p with workers := p.workers.set worker phase }

def step (items : Nat) (check : Nat → Finding) (p : Pool) (worker : Nat) :
    Pool :=
  match p.workers[worker]? with
  | some .looking => p.move worker (if p.tally.stops then .gone else .taking)
  | some .taking =>
    if p.taken < items then
      { p.move worker (.checking p.taken) with taken := p.taken + 1 }
    else p.move worker .gone
  | some (.checking item) => p.move worker (.answering item (check item))
  | some (.answering item finding) =>
    { p.move worker .looking with answers := p.answers ++ [(item, finding)] }
  | some .gone => p
  | none => p

def run (items : Nat) (check : Nat → Finding) (p : Pool)
    (schedule : List Nat) : Pool :=
  schedule.foldl (step items check) p

def isOver (p : Pool) : Bool :=
  p.workers.all (· == .gone)

end Pool

/-! ## One worker -/

/-- The tally and the items checked, from a tally on. -/
def checkFrom {α : Type} (check : α → Finding) (t : Tally) :
    List α → Tally × List α
  | [] => (t, [])
  | item :: rest =>
    if t.stops then (t, [])
    else
      let (t, checked) := checkFrom check (t.add (check item)) rest
      (t, item :: checked)

/-- The tally of the items in order, up to the first that asks for a stop, and
the items checked. -/
def checkAll {α : Type} (check : α → Finding) (items : List α) :
    Tally × List α :=
  checkFrom check .empty items

/-- A run that a fault ended, with the number of items that were verified
before. -/
structure Crash where
  item : String
  message : String
  total : Nat
  deriving DecidableEq

def Crash.toString (c : Crash) : String :=
  s!"worker crashed on {c.item}: {c.message}"

def Tally.conclude (t : Tally) : Except Crash Tally :=
  match t.fault with
  | some fault => .error ⟨fault.item, fault.message, t.total⟩
  | none => .ok t

end Reparse.Corpus
