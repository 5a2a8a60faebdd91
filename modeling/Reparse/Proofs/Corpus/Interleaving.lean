import Reparse.Corpus.Pool
import Reparse.Proofs.Corpus.Tallying
import Mathlib.Data.List.Perm.Basic
import Mathlib.Tactic

/-!
# Runs of a pool of workers

A run is any interleaving of the steps of the workers.  The items taken are
always the first ones of the list, and each of them is held by one worker or
has been answered.  When every worker has left, all items taken have therefore
been checked once and answered once, and a worker leaves only for a stop or at
the end of the list.

The work left bounds every run: each step of a worker that has not left lowers
it.
-/

namespace Reparse.Corpus

open scoped List

namespace Phase

/-- The item that a worker has taken and not yet answered. -/
def held? : Phase → Option Nat
  | checking item => some item
  | answering item _ => some item
  | _ => none

def unchecked? : Phase → Option Nat
  | checking item => some item
  | _ => none

def checked? : Phase → Option Nat
  | answering item _ => some item
  | _ => none

/-- The steps that a worker has yet to make in its round, with the next three
when it is to take an item. -/
def work : Phase → Nat
  | looking => 2
  | taking => 1
  | checking _ => 4
  | answering _ _ => 3
  | gone => 0

end Phase

namespace Pool

/-! ## Steps -/

/-- What the next step of a worker can be. -/
inductive Stepped (items : Nat) (check : Nat → Finding) (p : Pool)
    (worker : Nat) : Pool → Prop where
  | idle (hphase : ∀ phase, p.workers[worker]? = some phase → phase = .gone) :
      Stepped items check p worker p
  | stop (hphase : p.workers[worker]? = some .looking)
      (hstops : p.tally.stops = true) :
      Stepped items check p worker (p.move worker .gone)
  | proceed (hphase : p.workers[worker]? = some .looking)
      (hstops : p.tally.stops = false) :
      Stepped items check p worker (p.move worker .taking)
  | take (hphase : p.workers[worker]? = some .taking)
      (htaken : p.taken < items) :
      Stepped items check p worker
        { p.move worker (.checking p.taken) with taken := p.taken + 1 }
  | leave (hphase : p.workers[worker]? = some .taking)
      (htaken : items ≤ p.taken) :
      Stepped items check p worker (p.move worker .gone)
  | check {item : Nat} (hphase : p.workers[worker]? = some (.checking item)) :
      Stepped items check p worker
        (p.move worker (.answering item (check item)))
  | answer {item : Nat} {finding : Finding}
      (hphase : p.workers[worker]? = some (.answering item finding)) :
      Stepped items check p worker
        { p.move worker .looking with answers :=
          p.answers ++ [(item, finding)] }

section Steps

variable {items : Nat} {check : Nat → Finding} {p : Pool} {worker : Nat}

theorem stepped_step :
    Stepped items check p worker (p.step items check worker) := by
  unfold step
  split
  · next hphase =>
      split
      · next hstops => exact .stop hphase hstops
      · next hstops => exact .proceed hphase (by simpa using hstops)
  · next hphase =>
      split
      · next htaken => exact .take hphase htaken
      · next htaken => exact .leave hphase (Nat.le_of_not_lt htaken)
  · next hphase => exact .check hphase
  · next hphase => exact .answer hphase
  · next hphase =>
      apply Stepped.idle
      intro phase hsome
      rw [hphase, Option.some.injEq] at hsome
      exact hsome.symm
  · next hphase =>
      apply Stepped.idle
      intro phase hsome
      rw [hphase] at hsome
      cases hsome

/-- Moving a worker exchanges what its phase contributes. -/
theorem filterMap_move_perm (f : Phase → Option Nat) {old : Phase}
    (new : Phase) (hphase : p.workers[worker]? = some old) :
    (p.move worker new).workers.filterMap f ++ (f old).toList ~
      p.workers.filterMap f ++ (f new).toList := by
  obtain ⟨hlt, hold⟩ := List.getElem?_eq_some_iff.mp hphase
  have hbefore := (List.getElem_cons_eraseIdx_perm hlt).filterMap f
  have hafter := (List.set_perm_cons_eraseIdx hlt new).filterMap f
  rw [hold] at hbefore
  apply List.perm_iff_count.mpr
  intro item
  have hcount := hbefore.count_eq item
  have hcount' := hafter.count_eq item
  have hcons : ∀ phase rest, ((phase :: rest).filterMap f).count item =
      (f phase).toList.count item + (rest.filterMap f).count item := by
    intro phase rest
    cases hf : f phase <;> simp [hf, List.count_cons, Nat.add_comm]
  rw [hcons] at hcount hcount'
  simp only [move, List.count_append]
  omega

theorem mem_move {phase new : Phase}
    (hmem : phase ∈ (p.move worker new).workers) :
    phase ∈ p.workers ∨ phase = new :=
  List.mem_or_eq_of_mem_set hmem

theorem tally_eq (p : Pool) :
    p.tally = Tally.ofFindings (p.answers.map Prod.snd) := by
  unfold tally Tally.ofFindings
  rw [List.foldl_map]

theorem stops_of_answers {q : Pool} {more : List (Nat × Finding)}
    (hanswers : q.answers = p.answers ++ more)
    (hstops : p.tally.stops = true) :
    q.tally.stops = true := by
  rw [tally_eq] at hstops ⊢
  rw [hanswers, List.map_append]
  exact Tally.stops_ofFindings_append hstops

end Steps

/-! ## What every step preserves -/

/-- The items taken are the first of the list, each of them held by a worker or
answered with its finding, and no worker has left without a reason. -/
structure Consistent (items : Nat) (check : Nat → Finding) (p : Pool) :
    Prop where
  within : p.taken ≤ items
  taken_perm :
    p.answers.map Prod.fst ++ p.workers.filterMap Phase.held? ~
      List.range p.taken
  answered : ∀ answer ∈ p.answers, answer.2 = check answer.1
  found :
    ∀ item finding, .answering item finding ∈ p.workers → finding = check item
  left : .gone ∈ p.workers → p.tally.stops = true ∨ p.taken = items

section Runs

variable {items : Nat} {check : Nat → Finding} {p : Pool} {worker : Nat}

theorem consistent_start (workers : Nat) :
    Consistent items check (start workers items) := by
  constructor
  · exact Nat.zero_le _
  · simp [start, Phase.held?]
  · simp [start]
  · simp [start]
  · simp [start]

/-- Moving a worker between phases that hold the same item keeps what is
taken. -/
theorem Consistent.move (hp : Consistent items check p) {old new : Phase}
    (hphase : p.workers[worker]? = some old) (hheld : old.held? = new.held?)
    (hfound : ∀ item finding, new = .answering item finding →
      finding = check item)
    (hleft : new = .gone → p.tally.stops = true ∨ p.taken = items) :
    Consistent items check (p.move worker new) := by
  constructor
  · exact hp.within
  · have hperm := filterMap_move_perm Phase.held? new hphase
    rw [hheld, List.perm_append_right_iff] at hperm
    exact (hperm.append_left _).trans hp.taken_perm
  · exact hp.answered
  · intro item finding hmem
    rcases mem_move hmem with hmem | heq
    · exact hp.found item finding hmem
    · exact hfound item finding heq.symm
  · intro hmem
    rcases mem_move hmem with hmem | heq
    · exact hp.left hmem
    · exact hleft heq.symm

theorem Consistent.take (hp : Consistent items check p)
    (hphase : p.workers[worker]? = some .taking) (htaken : p.taken < items) :
    Consistent items check
      { p.move worker (.checking p.taken) with taken := p.taken + 1 } := by
  constructor
  · exact htaken
  · have hperm := filterMap_move_perm Phase.held? (.checking p.taken) hphase
    simp only [Phase.held?, Option.toList_none, Option.toList_some,
      List.append_nil] at hperm
    rw [List.range_succ]
    calc
      p.answers.map Prod.fst ++
        (p.move worker (.checking p.taken)).workers.filterMap Phase.held? ~
          p.answers.map Prod.fst ++
            (p.workers.filterMap Phase.held? ++ [p.taken]) :=
        hperm.append_left _
      _ ~ List.range p.taken ++ [p.taken] := by
        rw [← List.append_assoc]
        exact hp.taken_perm.append_right _
  · exact hp.answered
  · intro item finding hmem
    rcases mem_move hmem with hmem | heq
    · exact hp.found item finding hmem
    · cases heq
  · intro hmem
    rcases mem_move hmem with hmem | heq
    · rcases hp.left hmem with hstops | hall
      · exact .inl hstops
      · omega
    · cases heq

theorem Consistent.answer (hp : Consistent items check p) {item : Nat}
    {finding : Finding}
    (hphase : p.workers[worker]? = some (.answering item finding)) :
    Consistent items check
      { p.move worker .looking with answers :=
        p.answers ++ [(item, finding)] } := by
  constructor
  · exact hp.within
  · have hperm := filterMap_move_perm Phase.held? .looking hphase
    simp only [Phase.held?, Option.toList_none, Option.toList_some,
      List.append_nil] at hperm
    rw [List.map_append, List.map_singleton, List.append_assoc]
    refine List.Perm.trans (List.Perm.append_left _ ?_) hp.taken_perm
    exact List.perm_append_comm.trans hperm
  · intro answer hanswer
    rcases List.mem_append.mp hanswer with hanswer | hlast
    · exact hp.answered answer hanswer
    · rw [List.mem_singleton.mp hlast]
      exact hp.found item finding (List.mem_of_getElem? hphase)
  · intro other finding' hmem
    rcases mem_move hmem with hmem | heq
    · exact hp.found other finding' hmem
    · cases heq
  · intro hmem
    rcases mem_move hmem with hmem | heq
    · rcases hp.left hmem with hstops | hall
      · exact .inl (stops_of_answers rfl hstops)
      · exact .inr hall
    · cases heq

theorem Consistent.step (hp : Consistent items check p) :
    Consistent items check (p.step items check worker) := by
  have hstepped : Stepped items check p worker (p.step items check worker) :=
    stepped_step
  generalize p.step items check worker = q at hstepped ⊢
  cases hstepped with
  | idle _ => exact hp
  | stop hphase hstops =>
      exact hp.move hphase rfl (by simp) fun _ => .inl hstops
  | proceed hphase _ => exact hp.move hphase rfl (by simp) (by simp)
  | take hphase htaken => exact hp.take hphase htaken
  | leave hphase htaken =>
      exact hp.move hphase rfl (by simp) fun _ =>
        .inr (Nat.le_antisymm hp.within htaken)
  | @check item hphase =>
      have hfound : ∀ other finding,
          Phase.answering item (check item) = .answering other finding →
            finding = check other := by
        intro other finding heq
        cases heq
        rfl
      exact hp.move hphase rfl hfound (by simp)
  | answer hphase => exact hp.answer hphase

theorem Consistent.run (hp : Consistent items check p) (schedule : List Nat) :
    Consistent items check (p.run items check schedule) := by
  induction schedule generalizing p with
  | nil => exact hp
  | cons worker schedule ih => exact ih hp.step

/-! ## The items checked -/

/-- The item that the next step of a worker checks. -/
def checkedBy (p : Pool) (worker : Nat) : Option Nat :=
  p.workers[worker]?.bind Phase.unchecked?

/-- The items that the steps of a schedule check, in order. -/
def checkedAlong (items : Nat) (check : Nat → Finding) (p : Pool) :
    List Nat → List Nat
  | [] => []
  | worker :: schedule =>
    (p.checkedBy worker).toList ++
      checkedAlong items check (p.step items check worker) schedule

/-- The items checked so far, answered or about to be. -/
def checkedItems (p : Pool) : List Nat :=
  p.answers.map Prod.fst ++ p.workers.filterMap Phase.checked?

theorem checkedItems_move {old new : Phase}
    (hphase : p.workers[worker]? = some old) (hold : old.checked? = none) :
    (p.move worker new).checkedItems ~
      p.checkedItems ++ new.checked?.toList := by
  have hperm := filterMap_move_perm Phase.checked? new hphase
  rw [hold, Option.toList_none, List.append_nil] at hperm
  unfold checkedItems
  rw [List.append_assoc]
  exact hperm.append_left _

theorem checkedItems_step :
    (p.step items check worker).checkedItems ~
      p.checkedItems ++ (p.checkedBy worker).toList := by
  have hstepped : Stepped items check p worker (p.step items check worker) :=
    stepped_step
  unfold checkedBy
  generalize p.step items check worker = q at hstepped ⊢
  cases hstepped with
  | idle hphase =>
      have hnone : p.workers[worker]?.bind Phase.unchecked? = none := by
        cases hsome : p.workers[worker]? with
        | none => rfl
        | some phase =>
            rw [hphase phase hsome]
            rfl
      rw [hnone, Option.toList_none, List.append_nil]
  | stop hphase _ =>
      rw [hphase]
      exact checkedItems_move hphase rfl
  | proceed hphase _ =>
      rw [hphase]
      exact checkedItems_move hphase rfl
  | take hphase _ =>
      rw [hphase]
      have hmove : (p.move worker (.checking p.taken)).checkedItems ~ _ :=
        checkedItems_move hphase rfl
      exact hmove
  | leave hphase _ =>
      rw [hphase]
      exact checkedItems_move hphase rfl
  | check hphase =>
      rw [hphase]
      exact checkedItems_move hphase rfl
  | answer hphase =>
      have hperm := filterMap_move_perm Phase.checked? .looking hphase
      simp only [Phase.checked?, Option.toList_none, Option.toList_some,
        List.append_nil] at hperm
      rw [hphase]
      simp only [checkedItems, List.map_append, List.map_singleton,
        List.append_assoc, Option.bind_some, Phase.unchecked?,
        Option.toList_none, List.append_nil]
      exact (List.perm_append_comm.trans hperm).append_left _

theorem checkedItems_run (schedule : List Nat) :
    (p.run items check schedule).checkedItems ~
      p.checkedItems ++ checkedAlong items check p schedule := by
  induction schedule generalizing p with
  | nil => simp [run, checkedAlong]
  | cons worker schedule ih =>
      rw [checkedAlong, ← List.append_assoc]
      exact ih.trans (checkedItems_step.append_right _)

theorem checkedItems_start (workers items : Nat) :
    (start workers items).checkedItems = [] := by
  simp [checkedItems, start, Phase.checked?]

/-! ## Finished runs -/

theorem isOver_iff : p.isOver = true ↔ ∀ phase ∈ p.workers, phase = .gone := by
  simp [isOver]

theorem filterMap_of_isOver (hover : p.isOver = true) {f : Phase → Option Nat}
    (hf : f .gone = none) : p.workers.filterMap f = [] := by
  apply List.filterMap_eq_nil_iff.mpr
  intro phase hphase
  rw [isOver_iff.mp hover phase hphase, hf]

theorem length_workers_step :
    (p.step items check worker).workers.length = p.workers.length := by
  have hstepped : Stepped items check p worker (p.step items check worker) :=
    stepped_step
  generalize p.step items check worker = q at hstepped ⊢
  cases hstepped <;> simp [move]

theorem length_workers_run (schedule : List Nat) :
    (p.run items check schedule).workers.length = p.workers.length := by
  induction schedule generalizing p with
  | nil => rfl
  | cons worker schedule ih => exact ih.trans length_workers_step

theorem eq_tally_of_conclude {result : Tally}
    (hresult : p.tally.conclude = .ok result) :
    result = p.tally := by
  unfold Tally.conclude at hresult
  split at hresult <;> cases hresult
  rfl

theorem exists_fault_of_conclude {crash : Crash}
    (hcrash : p.tally.conclude = .error crash) :
    ∃ fault, p.answers.findSome? (fun answer => answer.2.fault?) = some fault ∧
      crash.item = fault.item ∧ crash.message = fault.message := by
  unfold Tally.conclude at hcrash
  split at hcrash
  · next fault hfault =>
      cases hcrash
      rw [tally_eq, Tally.ofFindings_eq] at hfault
      dsimp only at hfault
      rw [List.findSome?_map] at hfault
      exact ⟨fault, hfault, rfl, rfl⟩
  · cases hcrash

theorem crew_pos (workers items : Nat) : 0 < crew workers items := by
  unfold crew
  omega

namespace Consistent

variable (hp : Consistent items check p) (hover : p.isOver = true)

include hp hover

/-- When every worker has left, every item taken has been answered. -/
theorem answers_perm : p.answers.map Prod.fst ~ List.range p.taken := by
  have hperm := hp.taken_perm
  rw [filterMap_of_isOver hover rfl, List.append_nil] at hperm
  exact hperm

theorem findings_perm :
    p.answers.map Prod.snd ~ (List.range p.taken).map check := by
  have hfindings :
      p.answers.map Prod.snd = (p.answers.map Prod.fst).map check := by
    rw [List.map_map]
    exact List.map_congr_left hp.answered
  rw [hfindings]
  exact (hp.answers_perm hover).map check

theorem mem_findings_iff {finding : Finding} :
    finding ∈ p.answers.map Prod.snd ↔
      ∃ item < p.taken, check item = finding := by
  rw [(hp.findings_perm hover).mem_iff, List.mem_map]
  simp only [List.mem_range]

theorem total_eq :
    p.tally.total = (List.range p.taken).countP fun item =>
      (check item).isVerified := by
  rw [tally_eq, Tally.ofFindings_eq]
  dsimp only
  rw [(hp.findings_perm hover).countP_eq, List.countP_map]
  rfl

theorem defects_perm :
    p.tally.defects ~ (List.range p.taken).filterMap fun item =>
      (check item).defect? := by
  rw [tally_eq, Tally.ofFindings_eq]
  have hperm := (hp.findings_perm hover).filterMap Finding.defect?
  rwa [List.filterMap_map (f := check)] at hperm

theorem crash_iff :
    (∃ crash, p.tally.conclude = .error crash) ↔
      ∃ item < p.taken, ∃ fault, check item = .broken fault := by
  have hfault : (∃ crash, p.tally.conclude = .error crash) ↔
      p.tally.fault ≠ none := by
    unfold Tally.conclude
    cases p.tally.fault <;> simp
  rw [hfault, tally_eq, Tally.ofFindings_eq]
  dsimp only
  rw [ne_eq, List.findSome?_eq_none_iff]
  push Not
  constructor
  · rintro ⟨finding, hfinding, hbroken⟩
    obtain ⟨item, hitem, rfl⟩ := (hp.mem_findings_iff hover).mp hfinding
    refine ⟨item, hitem, ?_⟩
    cases hcheck : check item with
    | broken fault => exact ⟨fault, rfl⟩
    | passed => simp [hcheck, Finding.fault?] at hbroken
    | failed defect => simp [hcheck, Finding.fault?] at hbroken
  · rintro ⟨item, hitem, fault, hcheck⟩
    refine ⟨check item, (hp.mem_findings_iff hover).mpr ⟨item, hitem, rfl⟩, ?_⟩
    simp [hcheck, Finding.fault?]

/-- Without a defect or a fault the workers only leave at the end of the
list. -/
theorem all_taken (hworkers : p.workers ≠ [])
    (hpassed : ∀ item < p.taken, check item = .passed) :
    p.taken = items := by
  obtain ⟨phase, hphase⟩ := List.exists_mem_of_ne_nil _ hworkers
  have hgone : .gone ∈ p.workers := isOver_iff.mp hover phase hphase ▸ hphase
  rcases hp.left hgone with hstops | hall
  · rw [tally_eq, Tally.stops_ofFindings_iff] at hstops
    obtain ⟨finding, hfinding, hne⟩ := hstops
    obtain ⟨item, hitem, rfl⟩ := (hp.mem_findings_iff hover).mp hfinding
    exact absurd (hpassed item hitem) hne
  · exact hall

theorem clean_iff (hworkers : p.workers ≠ []) :
    (∃ result, p.tally.conclude = .ok result ∧ result.defects = [] ∧
      result.total = items) ↔
      ∀ item < items, check item = .passed := by
  constructor
  · rintro ⟨result, hresult, hdefects, htotal⟩
    obtain rfl := eq_tally_of_conclude hresult
    -- As many items as there are were verified, so that all were taken and
    -- none was broken.
    have hcount := hp.total_eq hover
    have hle := List.countP_le_length (l := List.range p.taken)
      (p := fun item => (check item).isVerified)
    have hwithin := hp.within
    rw [List.length_range] at hle
    have htaken : p.taken = items := by omega
    intro item hitem
    rw [← htaken] at hitem
    have hmem : item ∈ List.range p.taken := List.mem_range.mpr hitem
    have hall :
        (List.range p.taken).countP (fun item => (check item).isVerified) =
        (List.range p.taken).length := by
      rw [List.length_range, ← hcount, htotal, htaken]
    have hverified : (check item).isVerified = true :=
      List.countP_eq_length.mp hall item hmem
    have hnone : (check item).defect? = none := by
      have hperm := hp.defects_perm hover
      rw [hdefects, List.nil_perm, List.filterMap_eq_nil_iff] at hperm
      exact hperm item hmem
    revert hverified hnone
    cases check item <;> simp [Finding.isVerified, Finding.defect?]
  · intro hpassed
    have htaken : p.taken = items :=
      hp.all_taken hover hworkers fun item hitem =>
        hpassed item (Nat.lt_of_lt_of_le hitem hp.within)
    have hnocrash : ¬ ∃ crash, p.tally.conclude = .error crash := by
      rw [hp.crash_iff hover]
      rintro ⟨item, hitem, fault, hbroken⟩
      rw [hpassed item (htaken ▸ hitem)] at hbroken
      cases hbroken
    have hconclude : p.tally.conclude = .ok p.tally := by
      cases hresult : p.tally.conclude with
      | error crash => exact absurd ⟨crash, hresult⟩ hnocrash
      | ok result => rw [eq_tally_of_conclude hresult]
    refine ⟨p.tally, hconclude, ?_, ?_⟩
    · have hperm := hp.defects_perm hover
      rw [htaken] at hperm
      have hnil :
          (List.range items).filterMap (fun item => (check item).defect?) =
            [] := by
        apply List.filterMap_eq_nil_iff.mpr
        intro item hitem
        rw [hpassed item (List.mem_range.mp hitem)]
        rfl
      rw [hnil] at hperm
      exact hperm.eq_nil
    · rw [hp.total_eq hover, htaken]
      have hall :
          (List.range items).countP (fun item => (check item).isVerified) =
          (List.range items).length := by
        apply List.countP_eq_length.mpr
        intro item hitem
        rw [hpassed item (List.mem_range.mp hitem)]
        rfl
      rw [hall, List.length_range]

end Consistent

end Runs

/-- What a finished run comes to, with the items that its steps checked in
order. -/
structure Exact (items : Nat) (check : Nat → Finding) (p : Pool)
    (checked : List Nat) : Prop where
  within : p.taken ≤ items
  /-- The items checked are those before `taken`, each of them once. -/
  checked_perm : checked ~ List.range p.taken
  /-- Each of them was answered once, with what its check gave. -/
  answers_perm : p.answers.map Prod.fst ~ List.range p.taken
  answers_eq : ∀ answer ∈ p.answers, answer.2 = check answer.1
  total_eq : p.tally.total = (List.range p.taken).countP fun item =>
    (check item).isVerified
  /-- The defects stand in the order in which they were recorded. -/
  defects_eq : p.tally.defects = p.answers.filterMap fun answer =>
    answer.2.defect?
  defects_perm : p.tally.defects ~ (List.range p.taken).filterMap fun item =>
    (check item).defect?
  all_taken : (∀ item < p.taken, check item = .passed) → p.taken = items
  crash_iff : (∃ crash, p.tally.conclude = .error crash) ↔
    ∃ item < p.taken, ∃ fault, check item = .broken fault
  /-- The crash is that of the fault recorded first. -/
  crash_eq : ∀ crash, p.tally.conclude = .error crash → ∃ fault,
    p.answers.findSome? (fun answer => answer.2.fault?) = some fault ∧
      crash.item = fault.item ∧ crash.message = fault.message
  result_eq : ∀ result, p.tally.conclude = .ok result → result = p.tally
  clean_iff : (∃ result, p.tally.conclude = .ok result ∧ result.defects = [] ∧
    result.total = items) ↔ ∀ item < items, check item = .passed

/-- Whatever the number of workers, the checks and the order of the steps, a
run in which every worker has left is exact. -/
theorem exact_of_isOver (workers items : Nat) (check : Nat → Finding)
    (schedule : List Nat)
    (hover : ((start workers items).run items check schedule).isOver = true) :
    Exact items check ((start workers items).run items check schedule)
      (checkedAlong items check (start workers items) schedule) := by
  have hp :
      Consistent items check
        ((start workers items).run items check schedule) :=
    (consistent_start workers).run schedule
  have hworkers :
      ((start workers items).run items check schedule).workers ≠ [] := by
    apply List.ne_nil_of_length_pos
    rw [length_workers_run]
    simpa [start] using crew_pos workers items
  have hchecked : checkedAlong items check (start workers items) schedule ~
      ((start workers items).run items check schedule).answers.map
        Prod.fst := by
    have hperm :
        ((start workers items).run items check schedule).checkedItems ~
        (start workers items).checkedItems ++
          checkedAlong items check (start workers items) schedule :=
      checkedItems_run schedule
    rw [checkedItems_start, List.nil_append] at hperm
    refine hperm.symm.trans ?_
    unfold checkedItems
    rw [filterMap_of_isOver hover rfl, List.append_nil]
  refine
    { within := hp.within
      checked_perm := hchecked.trans (hp.answers_perm hover)
      answers_perm := hp.answers_perm hover
      answers_eq := hp.answered
      total_eq := hp.total_eq hover
      defects_eq := ?_
      defects_perm := hp.defects_perm hover
      all_taken := hp.all_taken hover hworkers
      crash_iff := hp.crash_iff hover
      crash_eq := fun crash hcrash => exists_fault_of_conclude hcrash
      result_eq := fun result hresult => eq_tally_of_conclude hresult
      clean_iff := hp.clean_iff hover hworkers }
  rw [tally_eq, Tally.ofFindings_eq, List.filterMap_map]
  rfl

/-- Checks of which one passes, one fails and the others break down. -/
def mixedCheck : Nat → Finding
  | 0 => .passed
  | 1 => .failed ⟨"b", none, "b failed"⟩
  | _ => .broken ⟨"c", "c is lost"⟩

/-- Two workers on three items: the third is taken before the failure of the
second is recorded. -/
def mixedSchedule : List Nat :=
  [0, 0, 0, 0, 1, 1, 0, 0, 1, 1, 0, 0, 0, 1]

theorem exact_mixedSchedule :
    ((start 2 3).run 3 mixedCheck mixedSchedule).isOver = true ∧
      Exact 3 mixedCheck ((start 2 3).run 3 mixedCheck mixedSchedule)
        (checkedAlong 3 mixedCheck (start 2 3) mixedSchedule) :=
  ⟨by decide, exact_of_isOver 2 3 mixedCheck mixedSchedule (by decide)⟩

/-! ## Every run can be finished -/

/-- The steps that the workers have yet to make, when each takes the items that
are left. -/
def workLeft (items : Nat) (p : Pool) : Nat :=
  4 * (items - p.taken) + (p.workers.map Phase.work).sum

section WorkLeft

variable {items : Nat} {check : Nat → Finding} {p : Pool} {worker : Nat}

theorem sum_work_move {old : Phase} (new : Phase)
    (hphase : p.workers[worker]? = some old) :
    ((p.move worker new).workers.map Phase.work).sum + old.work =
      (p.workers.map Phase.work).sum + new.work := by
  obtain ⟨hlt, hold⟩ := List.getElem?_eq_some_iff.mp hphase
  have hbefore :=
    ((List.getElem_cons_eraseIdx_perm hlt).map Phase.work).sum_nat
  have hafter := ((List.set_perm_cons_eraseIdx hlt new).map Phase.work).sum_nat
  rw [hold] at hbefore
  simp only [List.map_cons, List.sum_cons] at hbefore hafter
  simp only [move]
  omega

theorem workLeft_step_lt {phase : Phase}
    (hphase : p.workers[worker]? = some phase) (hgone : phase ≠ .gone) :
    workLeft items (p.step items check worker) < workLeft items p := by
  have hstepped : Stepped items check p worker (p.step items check worker) :=
    stepped_step
  unfold workLeft
  generalize p.step items check worker = q at hstepped ⊢
  cases hstepped with
  | idle hidle => exact absurd (hidle phase hphase) hgone
  | stop hold _ =>
      have hsum := sum_work_move .gone hold
      simp only [Phase.work, move] at hsum ⊢
      omega
  | proceed hold _ =>
      have hsum := sum_work_move .taking hold
      simp only [Phase.work, move] at hsum ⊢
      omega
  | take hold htaken =>
      have hsum := sum_work_move (.checking p.taken) hold
      simp only [Phase.work, move] at hsum ⊢
      omega
  | leave hold _ =>
      have hsum := sum_work_move .gone hold
      simp only [Phase.work, move] at hsum ⊢
      omega
  | @check item hold =>
      have hsum := sum_work_move (.answering item (check item)) hold
      simp only [Phase.work, move] at hsum ⊢
      omega
  | answer hold =>
      have hsum := sum_work_move .looking hold
      simp only [Phase.work, move] at hsum ⊢
      omega

/-- From every state some steps lead to one in which every worker has left. -/
theorem exists_run_isOver (items : Nat) (check : Nat → Finding) (p : Pool) :
    ∃ schedule, (p.run items check schedule).isOver = true := by
  induction hwork : workLeft items p using Nat.strong_induction_on
    generalizing p with
  | _ work ih =>
      by_cases hover : p.isOver = true
      · exact ⟨[], hover⟩
      · rw [isOver_iff] at hover
        push Not at hover
        obtain ⟨phase, hmem, hgone⟩ := hover
        obtain ⟨worker, hphase⟩ := List.mem_iff_getElem?.mp hmem
        have hlt : workLeft items (p.step items check worker) < work :=
          hwork ▸ workLeft_step_lt hphase hgone
        obtain ⟨schedule, hschedule⟩ := ih _ hlt _ rfl
        exact ⟨worker :: schedule, hschedule⟩

end WorkLeft

end Pool
end Reparse.Corpus
