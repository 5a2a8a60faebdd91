import Reparse.Proofs.Corpus.Interleaving

/-!
# A single worker

With one worker the order of the steps leaves no choice: a finished run has
checked the items in order and ends with the tally that `checkAll` computes.
At every moment, what is still ahead of the worker is what `checkFrom` does
with the items that are left.
-/

namespace Reparse.Corpus

namespace Pool

variable {α : Type}

def findingAt (check : α → Finding) (items : List α) (position : Nat) :
    Finding :=
  (items[position]?.map check).getD .passed

/-- The result of checking on from a tally, when so many items have been
taken. -/
def goOn (check : α → Finding) (items : List α) (t : Tally) (taken : Nat) :
    Tally × List α :=
  ((checkFrom check t (items.drop taken)).1,
    items.take taken ++ (checkFrom check t (items.drop taken)).2)

section GoOn

variable {check : α → Finding} {items : List α} {t : Tally} {taken : Nat}

theorem goOn_stop (hend : t.stops = true ∨ taken = items.length) :
    goOn check items t taken = (t, items.take taken) := by
  unfold goOn
  rcases hend with hstops | rfl
  · cases items.drop taken <;> simp [checkFrom, hstops]
  · simp [checkFrom]

theorem goOn_take (hstops : t.stops = false) (htaken : taken < items.length) :
    goOn check items t taken =
      goOn check items (t.add (findingAt check items taken)) (taken + 1) := by
  have hfinding : findingAt check items taken = check items[taken] := by
    simp [findingAt, htaken]
  unfold goOn
  rw [List.drop_eq_getElem_cons htaken, ← List.take_append_getElem htaken,
    hfinding, List.append_assoc]
  simp only [checkFrom, hstops, Bool.false_eq_true, if_false]
  rfl

end GoOn

/-- The tally when the worker will have answered for the item it holds. -/
def expectedTally (check : Nat → Finding) (t : Tally) : Phase → Tally
  | .checking item => t.add (check item)
  | .answering _ finding => t.add finding
  | _ => t

/-- The worker is alone, and `checkAll` gives what is still ahead of it. -/
structure OnTrack (check : α → Finding) (items : List α) (p : Pool)
    (phase : Phase) : Prop where
  alone : p.workers = [phase]
  ahead :
    goOn check items (expectedTally (findingAt check items) p.tally phase)
      p.taken =
    checkAll check items
  goes : phase = .taking → p.tally.stops = false

section Steps

variable {check : α → Finding} {items : List α} {p : Pool} {phase : Phase}

theorem onTrack_start {workers : Nat} (hcrew : crew workers items.length = 1) :
    OnTrack check items (start workers items.length) .looking := by
  constructor
  · simp [start, hcrew]
  · simp [goOn, expectedTally, start, tally, checkAll]
  · simp

theorem OnTrack.phase_eq (hp : OnTrack check items p phase) {worker : Nat}
    {found : Phase} (hphase : p.workers[worker]? = some found) :
    worker = 0 ∧ found = phase := by
  rw [hp.alone, List.getElem?_singleton] at hphase
  split at hphase
  · next hworker => exact ⟨hworker, (Option.some.inj hphase).symm⟩
  · cases hphase

theorem OnTrack.workers_move (hp : OnTrack check items p phase) {worker : Nat}
    {found : Phase} (hphase : p.workers[worker]? = some found) (new : Phase) :
    (p.move worker new).workers = [new] := by
  obtain ⟨rfl, -⟩ := hp.phase_eq hphase
  simp [move, hp.alone]

theorem OnTrack.step (hp : OnTrack check items p phase) (worker : Nat) :
    ∃ next, OnTrack check items
      (p.step items.length (findingAt check items) worker) next := by
  have hstepped : Stepped items.length (findingAt check items) p worker
      (p.step items.length (findingAt check items) worker) := stepped_step
  generalize p.step items.length (findingAt check items) worker = q
    at hstepped ⊢
  cases hstepped with
  | idle _ => exact ⟨phase, hp⟩
  | stop hphase _ =>
      obtain ⟨-, rfl⟩ := hp.phase_eq hphase
      exact ⟨.gone, hp.workers_move hphase _, hp.ahead, by simp⟩
  | proceed hphase hstops =>
      obtain ⟨-, rfl⟩ := hp.phase_eq hphase
      exact ⟨.taking, hp.workers_move hphase _, hp.ahead, fun _ => hstops⟩
  | take hphase htaken =>
      obtain ⟨-, rfl⟩ := hp.phase_eq hphase
      refine ⟨.checking p.taken, hp.workers_move hphase _, ?_, by simp⟩
      rw [← hp.ahead]
      exact (goOn_take (hp.goes rfl) htaken).symm
  | leave hphase _ =>
      obtain ⟨-, rfl⟩ := hp.phase_eq hphase
      exact ⟨.gone, hp.workers_move hphase _, hp.ahead, by simp⟩
  | @check item hphase =>
      obtain ⟨-, rfl⟩ := hp.phase_eq hphase
      exact ⟨.answering item _, hp.workers_move hphase _, hp.ahead, by simp⟩
  | @answer item finding hphase =>
      obtain ⟨-, rfl⟩ := hp.phase_eq hphase
      refine ⟨.looking, hp.workers_move hphase _, ?_, by simp⟩
      rw [← hp.ahead]
      simp [expectedTally, tally, move]

theorem OnTrack.run (hp : OnTrack check items p phase) (schedule : List Nat) :
    ∃ last, OnTrack check items
      (p.run items.length (findingAt check items) schedule) last := by
  induction schedule generalizing p phase with
  | nil => exact ⟨phase, hp⟩
  | cons worker schedule ih =>
      obtain ⟨next, hnext⟩ := hp.step worker
      exact ih hnext

end Steps

/-- A finished run of a single worker ends with the tally of `checkAll`, which
names the items that were taken. -/
theorem checkAll_eq_of_isOver {check : α → Finding} {items : List α}
    {workers : Nat} (hcrew : crew workers items.length = 1)
    {schedule : List Nat} {p : Pool}
    (hrun : (start workers items.length).run items.length
      (findingAt check items) schedule = p) (hover : p.isOver = true) :
    checkAll check items = (p.tally, items.take p.taken) := by
  have hstart : OnTrack check items (start workers items.length) .looking :=
    onTrack_start hcrew
  obtain ⟨last, htrack⟩ := hstart.run schedule
  rw [hrun] at htrack
  have hmem : last ∈ p.workers := by simp [htrack.alone]
  obtain rfl : last = .gone := isOver_iff.mp hover last hmem
  have hp : Consistent items.length (findingAt check items) p :=
    hrun ▸ (consistent_start workers).run schedule
  rw [← htrack.ahead]
  exact goOn_stop (hp.left hmem)

end Pool
end Reparse.Corpus
