import Reparse.Proofs.Corpus.Interleaving

/-!
# How fast a pool stops

Once a defect or a fault has been recorded, every worker that looks for it
leaves.  Looking and taking are two steps of a worker, so one that has looked
before still takes its item.  No worker comes to stand between the two
afterwards, and the worker that recorded the finding looks next: the items
taken from then on belong to different workers among the others.
-/

namespace Reparse.Corpus

open scoped List

namespace Pool

section Stopping

variable {items : Nat} {check : Nat → Finding} {p : Pool} {worker : Nat}

def takes (items : Nat) (p : Pool) (worker : Nat) : Bool :=
  p.workers[worker]? == some .taking && p.taken < items

/-- The workers whose steps take an item along a schedule, in order. -/
def takersAlong (items : Nat) (check : Nat → Finding) (p : Pool) :
    List Nat → List Nat
  | [] => []
  | worker :: schedule =>
    (if p.takes items worker then [worker] else []) ++
      takersAlong items check (p.step items check worker) schedule

/-- The next step of the worker records a defect or a fault, and none has been
recorded before. -/
def RecordsFirst (items : Nat) (check : Nat → Finding) (p : Pool)
    (worker : Nat) : Prop :=
  (∀ answer ∈ p.answers, answer.2 = .passed) ∧
    ∃ answer ∈ (p.step items check worker).answers, answer.2 ≠ .passed

theorem takes_iff :
    p.takes items worker = true ↔
      p.workers[worker]? = some .taking ∧ p.taken < items := by
  simp [takes]

/-! ## Items taken -/

theorem taken_step :
    (p.step items check worker).taken = p.taken + if p.takes items worker
      then 1 else 0 := by
  have hstepped : Stepped items check p worker (p.step items check worker) :=
    stepped_step
  generalize p.step items check worker = q at hstepped ⊢
  cases hstepped with
  | idle hphase =>
      have hnot : p.takes items worker = false := by
        rw [Bool.eq_false_iff, ne_eq, takes_iff]
        rintro ⟨htaking, -⟩
        cases hphase _ htaking
      simp [hnot]
  | stop hphase _ => simp [takes, hphase, move]
  | proceed hphase _ => simp [takes, hphase, move]
  | take hphase htaken => simp [takes, hphase, htaken]
  | leave hphase htaken => simp [takes, hphase, Nat.not_lt.mpr htaken, move]
  | check hphase => simp [takes, hphase, move]
  | answer hphase => simp [takes, hphase, move]

theorem taken_run (schedule : List Nat) :
    (p.run items check schedule).taken =
      p.taken + (takersAlong items check p schedule).length := by
  induction schedule generalizing p with
  | nil => rfl
  | cons worker schedule ih =>
      have hrest : (p.run items check (worker :: schedule)).taken =
          (p.step items check worker).taken +
            (takersAlong items check (p.step items check worker)
              schedule).length := ih
      rw [hrest, taken_step, takersAlong, List.length_append]
      split
      · rw [List.length_singleton]
        omega
      · rw [List.length_nil]
        omega

/-! ## The request to stop -/

/-- A stop is asked for exactly when a defect or a fault has been recorded. -/
theorem stops_iff :
    p.tally.stops = true ↔ ∃ answer ∈ p.answers, answer.2 ≠ .passed := by
  rw [tally_eq, Tally.stops_ofFindings_iff]
  simp only [List.mem_map, exists_exists_and_eq_and]

theorem stops_step (hstops : p.tally.stops = true) :
    (p.step items check worker).tally.stops = true := by
  have hstepped : Stepped items check p worker (p.step items check worker) :=
    stepped_step
  generalize p.step items check worker = q at hstepped ⊢
  cases hstepped with
  | answer hphase => exact stops_of_answers rfl hstops
  | _ => exact hstops

theorem stops_run (hstops : p.tally.stops = true) (schedule : List Nat) :
    (p.run items check schedule).tally.stops = true := by
  induction schedule generalizing p with
  | nil => exact hstops
  | cons worker schedule ih =>
      apply ih
      exact stops_step hstops

/-! ## Workers that still take an item -/

/-- A step changes the phase of its own worker at most, and lets it take an
item only if no stop is asked for. -/
theorem workers_step (items : Nat) (check : Nat → Finding) (p : Pool)
    (worker : Nat) :
    (p.step items check worker).workers = p.workers ∧
      p.workers[worker]? ≠ some .taking ∨
      ∃ phase, (p.step items check worker).workers =
        p.workers.set worker phase ∧
        (phase = .taking → p.tally.stops = false) := by
  have hstepped : Stepped items check p worker (p.step items check worker) :=
    stepped_step
  generalize p.step items check worker = q at hstepped ⊢
  cases hstepped with
  | idle hphase =>
      left
      refine ⟨rfl, fun htaking => ?_⟩
      cases hphase _ htaking
  | proceed _ hgoes => exact .inr ⟨.taking, rfl, fun _ => hgoes⟩
  | stop _ _ => exact .inr ⟨.gone, rfl, by simp⟩
  | take _ _ => exact .inr ⟨.checking p.taken, rfl, by simp⟩
  | leave _ _ => exact .inr ⟨.gone, rfl, by simp⟩
  | check _ => exact .inr ⟨.answering _ _, rfl, by simp⟩
  | answer _ => exact .inr ⟨.looking, rfl, by simp⟩

/-- After a request to stop, no worker comes to take an item that was not about
to. -/
theorem taking_of_step {other : Nat} (hstops : p.tally.stops = true)
    (htaking : (p.step items check worker).workers[other]? = some .taking) :
    p.workers[other]? = some .taking ∧ other ≠ worker := by
  rcases workers_step items check p worker with
    ⟨hsame, hnot⟩ | ⟨phase, hset, hgoes⟩
  · rw [hsame] at htaking
    refine ⟨htaking, ?_⟩
    rintro rfl
    exact hnot htaking
  · rw [hset, List.getElem?_set] at htaking
    split at htaking
    · split at htaking
      · have hstopped := hgoes (Option.some.inj htaking)
        rw [hstops] at hstopped
        cases hstopped
      · cases htaking
    · next hother => exact ⟨htaking, Ne.symm hother⟩

theorem taking_of_mem_takersAlong {schedule : List Nat} {taker : Nat}
    (hstops : p.tally.stops = true)
    (htaker : taker ∈ takersAlong items check p schedule) :
    p.workers[taker]? = some .taking := by
  induction schedule generalizing p with
  | nil => cases htaker
  | cons worker schedule ih =>
      rw [takersAlong, List.mem_append] at htaker
      rcases htaker with hnow | hlater
      · split at hnow
        · next htakes =>
            rw [List.mem_singleton.mp hnow]
            exact (takes_iff.mp htakes).1
        · cases hnow
      · exact (taking_of_step hstops (ih (stops_step hstops) hlater)).1

/-- After a request to stop, every worker takes one item at most. -/
theorem nodup_takersAlong (hstops : p.tally.stops = true)
    (schedule : List Nat) :
    (takersAlong items check p schedule).Nodup := by
  induction schedule generalizing p with
  | nil => exact List.nodup_nil
  | cons worker schedule ih =>
      have hstopped : (p.step items check worker).tally.stops = true :=
        stops_step hstops
      rw [takersAlong]
      split
      · refine List.nodup_cons.mpr ⟨fun hagain => ?_, ih hstopped⟩
        have htaking := taking_of_mem_takersAlong hstopped hagain
        exact (taking_of_step hstops htaking).2 rfl
      · exact ih hstopped

/-- The worker that records the first finding looks for the request next. -/
theorem RecordsFirst.looking (hfirst : RecordsFirst items check p worker) :
    (p.step items check worker).workers[worker]? = some .looking := by
  obtain ⟨hpassed, answer, hanswer, hne⟩ := hfirst
  have hstepped : Stepped items check p worker (p.step items check worker) :=
    stepped_step
  generalize p.step items check worker = q at hstepped hanswer ⊢
  cases hstepped with
  | answer hphase =>
      have hlt := (List.getElem?_eq_some_iff.mp hphase).1
      simp [move, hlt]
  | _ => exact absurd (hpassed answer hanswer) hne

theorem RecordsFirst.stops (hfirst : RecordsFirst items check p worker) :
    (p.step items check worker).tally.stops = true :=
  stops_iff.mpr hfirst.2

end Stopping

/-- What holds of a pool of so many workers: when it asks for a stop, and what
is taken from then on. -/
structure FailsFast (items : Nat) (check : Nat → Finding) (workers : Nat)
    (p : Pool) : Prop where
  stops_iff : p.tally.stops = true ↔ ∃ answer ∈ p.answers, answer.2 ≠ .passed
  stops_later : p.tally.stops = true →
    ∀ later, (p.run items check later).tally.stops = true
  /-- Each item taken after the first finding was recorded has a taker of its
  own. -/
  taken_later : ∀ worker, RecordsFirst items check p worker → ∀ later,
    ((p.step items check worker).run items check later).taken =
      (p.step items check worker).taken +
        (takersAlong items check (p.step items check worker) later).length
  takers_nodup : ∀ worker, RecordsFirst items check p worker → ∀ later,
    (takersAlong items check (p.step items check worker) later).Nodup
  takers_ne : ∀ worker, RecordsFirst items check p worker → ∀ later,
    worker ∉ takersAlong items check (p.step items check worker) later
  takers_le : ∀ worker, RecordsFirst items check p worker → ∀ later,
    (takersAlong items check (p.step items check worker) later).length ≤
      workers - 1

theorem failsFast_of_length {items : Nat} {check : Nat → Finding} {p : Pool}
    {workers : Nat} (hlength : p.workers.length = workers) :
    FailsFast items check workers p := by
  have hnot : ∀ worker, RecordsFirst items check p worker → ∀ later,
      worker ∉ takersAlong items check (p.step items check worker) later := by
    intro worker hfirst later hmem
    have htaking := taking_of_mem_takersAlong hfirst.stops hmem
    rw [hfirst.looking] at htaking
    cases htaking
  refine
    { stops_iff := stops_iff
      stops_later := fun hstops later => stops_run hstops later
      taken_later := fun _ _ later => taken_run later
      takers_nodup := fun _ hfirst later =>
        nodup_takersAlong hfirst.stops later
      takers_ne := hnot
      takers_le := ?_ }
  intro worker hfirst later
  -- The takers are different workers, and none of them is the one that
  -- recorded the finding.
  have hnodup :
      (worker :: takersAlong items check (p.step items check worker)
        later).Nodup :=
    List.nodup_cons.mpr
      ⟨hnot worker hfirst later, nodup_takersAlong hfirst.stops later⟩
  have hafter : (p.step items check worker).workers.length = workers :=
    length_workers_step.trans hlength
  have hwithin :
      worker :: takersAlong items check (p.step items check worker) later ⊆
      List.range workers := by
    intro taker htaker
    rw [List.mem_range, ← hafter]
    rcases List.mem_cons.mp htaker with rfl | hmem
    · exact (List.getElem?_eq_some_iff.mp hfirst.looking).1
    · have htaking := taking_of_mem_takersAlong hfirst.stops hmem
      exact (List.getElem?_eq_some_iff.mp htaking).1
  have hle := (hnodup.subperm hwithin).length_le
  rw [List.length_cons, List.length_range] at hle
  omega

/-- Whatever the checks find and in whichever order the workers step, the pool
fails fast at every moment of a run. -/
theorem failsFast_run (workers items : Nat) (check : Nat → Finding)
    (schedule : List Nat) :
    FailsFast items check (crew workers items)
      ((start workers items).run items check schedule) := by
  apply failsFast_of_length
  rw [length_workers_run]
  simp [start]

/-- The second of two workers takes an item after the first has recorded a
defect. -/
example :
    let p :=
  (start 2 2).run 2 (fun _ => .failed ⟨"a", none, "a failed"⟩) [0, 1, 0, 0, 0]
    p.tally.stops = true ∧
      takersAlong 2 (fun _ =>
        .failed ⟨"a", none, "a failed"⟩) p [1, 1, 1, 1, 0] = [1] := by
  decide

end Pool
end Reparse.Corpus
