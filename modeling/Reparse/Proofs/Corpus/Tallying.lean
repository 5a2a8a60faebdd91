import Reparse.Corpus.Tally
import Mathlib.Tactic

/-!
# Tallies of findings

A tally is determined by the findings that were added to it: their number
without the faults, their defects in order, and the first fault.
-/

namespace Reparse.Corpus

namespace Finding

/-- Whether the item was verified, with or without a defect. -/
def isVerified : Finding → Bool
  | broken _ => false
  | _ => true

def defect? : Finding → Option Defect
  | failed defect => some defect
  | _ => none

def fault? : Finding → Option Fault
  | broken fault => some fault
  | _ => none

theorem eq_passed_iff {finding : Finding} :
    finding = .passed ↔ finding.defect? = none ∧ finding.fault? = none := by
  cases finding <;> simp [defect?, fault?]

end Finding

namespace Tally

theorem foldl_add (t : Tally) (findings : List Finding) :
    findings.foldl Tally.add t =
      ⟨t.total + findings.countP Finding.isVerified,
        t.defects ++ findings.filterMap Finding.defect?,
        t.fault.or (findings.findSome? Finding.fault?)⟩ := by
  induction findings generalizing t with
  | nil => simp
  | cons finding findings ih =>
      rw [List.foldl_cons, ih]
      cases finding with
      | passed =>
          simp only [add, Finding.isVerified, Finding.defect?, Finding.fault?,
            List.countP_cons, List.filterMap_cons, List.findSome?_cons,
            if_true]
          congr 1
          omega
      | failed defect =>
          simp only [add, Finding.isVerified, Finding.defect?, Finding.fault?,
            List.countP_cons, List.filterMap_cons, List.findSome?_cons,
            if_true, List.append_assoc, List.singleton_append]
          congr 1
          omega
      | broken fault =>
          simp only [add, Finding.isVerified, Finding.defect?, Finding.fault?,
            List.countP_cons, List.filterMap_cons, List.findSome?_cons,
            Bool.false_eq_true, if_false, Nat.add_zero]
          cases t.fault <;> rfl

def ofFindings (findings : List Finding) : Tally :=
  findings.foldl Tally.add .empty

section OfFindings

variable (findings : List Finding)

theorem ofFindings_eq :
    ofFindings findings =
      ⟨findings.countP Finding.isVerified, findings.filterMap Finding.defect?,
        findings.findSome? Finding.fault?⟩ := by
  unfold ofFindings
  rw [foldl_add]
  simp [empty]

variable {findings}

theorem stops_ofFindings_iff :
    (ofFindings findings).stops = true ↔
      ∃ finding ∈ findings, finding ≠ .passed := by
  have hpassed : (ofFindings findings).stops = false ↔
      ∀ finding ∈ findings, finding = .passed := by
    rw [ofFindings_eq]
    simp only [stops, Bool.or_eq_false_iff, Bool.not_eq_false',
      List.isEmpty_iff, List.filterMap_eq_nil_iff, Option.isSome_eq_false_iff,
      Option.isNone_iff_eq_none, List.findSome?_eq_none_iff,
      Finding.eq_passed_iff]
    constructor
    · rintro ⟨hdefects, hfaults⟩ finding hfinding
      exact ⟨hdefects finding hfinding, hfaults finding hfinding⟩
    · intro hall
      constructor
      · intro finding hfinding
        exact (hall finding hfinding).1
      · intro finding hfinding
        exact (hall finding hfinding).2
  rw [← Bool.not_eq_false, hpassed]
  push Not
  rfl

/-- A request to stop is never taken back. -/
theorem stops_ofFindings_append {more : List Finding}
    (hstops : (ofFindings findings).stops = true) :
    (ofFindings (findings ++ more)).stops = true := by
  obtain ⟨finding, hfinding, hne⟩ := stops_ofFindings_iff.mp hstops
  exact stops_ofFindings_iff.mpr
    ⟨finding, List.mem_append_left _ hfinding, hne⟩

end OfFindings

end Tally
end Reparse.Corpus
