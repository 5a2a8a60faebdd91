import Reparse.Trial

/-!
# Tallies

The findings on work items add up to a tally.  An item that was verified
counts, with its defect if it has one; an item whose check broke down does not
count, and the first such fault is kept.  A tally with a defect or a fault asks
for a stop.
-/

namespace Reparse.Corpus

/-- A check of an item that broke down. -/
structure Fault where
  item : String
  message : String
  deriving DecidableEq

/-- What the check of an item gave. -/
inductive Finding where
  | passed
  | failed (defect : Defect)
  | broken (fault : Fault)
  deriving DecidableEq

structure Tally where
  total : Nat
  defects : List Defect
  fault : Option Fault
  deriving DecidableEq

namespace Tally

def empty : Tally :=
  ⟨0, [], none⟩

def add (t : Tally) : Finding → Tally
  | .passed => { t with total := t.total + 1 }
  | .failed defect =>
      { t with total := t.total + 1, defects := t.defects ++ [defect] }
  | .broken fault => { t with fault := t.fault.orElse fun _ => some fault }

def stops (t : Tally) : Bool :=
  !t.defects.isEmpty || t.fault.isSome

end Tally
end Reparse.Corpus
