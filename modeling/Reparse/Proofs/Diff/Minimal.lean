import Reparse.Proofs.Diff.Scripts

/-!
# Differences with few changes

When the middles of two lists fit in the table, the difference keeps as many
lines as the lists have in common in order, so that no script between them has
fewer changes.  The table answers for the middles only: what the lists share at
their start and at their end is kept in any case, and keeping it never costs a
line elsewhere.
-/

namespace Reparse

variable {α : Type}

/-! ## What is cut off costs nothing -/

namespace SharesAtMost

variable {bound : Nat} {xs ys : List α}

theorem append_left (hbound : SharesAtMost bound xs ys) (start : List α) :
    SharesAtMost (start.length + bound) (start ++ xs) (start ++ ys) := by
  induction start with
  | nil => simpa using hbound
  | cons line start ih =>
      apply (ih.cons_cons line).mono
      rw [List.length_cons]
      omega

theorem reverse (hbound : SharesAtMost bound xs ys) :
    SharesAtMost bound xs.reverse ys.reverse := by
  intro common hxs hys
  rw [← List.length_reverse]
  apply hbound
  · simpa using hxs.reverse
  · simpa using hys.reverse

theorem append_right (hbound : SharesAtMost bound xs ys) (stop : List α) :
    SharesAtMost (bound + stop.length) (xs ++ stop) (ys ++ stop) := by
  have hmirror := (hbound.reverse.append_left stop.reverse).reverse
  simp only [List.reverse_append, List.reverse_reverse,
    List.length_reverse] at hmirror
  rwa [Nat.add_comm] at hmirror

end SharesAtMost

/-! ## Counting changes -/

def Edit.isChange : Edit α → Bool
  | same _ => false
  | removed _ => true
  | added _ => true

/-- The number of lines taken away or put in. -/
def changeCount (edits : List (Edit α)) : Nat :=
  edits.countP Edit.isChange

theorem keptLines_append (edits more : List (Edit α)) :
    keptLines (edits ++ more) = keptLines edits ++ keptLines more :=
  List.filterMap_append

theorem keptLines_map_same (lines : List α) :
    keptLines (lines.map Edit.same) = lines := by
  induction lines with
  | nil => rfl
  | cons line lines ih => exact congrArg (line :: ·) ih

/-- Every line that is not kept is one change. -/
theorem IsScript.changeCount_add {edits : List (Edit α)} {old new : List α}
    (hscript : IsScript edits old new) :
    changeCount edits + 2 * (keptLines edits).length =
      old.length + new.length := by
  rw [← hscript.old, ← hscript.new]
  clear hscript
  induction edits with
  | nil => rfl
  | cons edit edits ih =>
      unfold changeCount keptLines at ih ⊢
      cases edit <;>
        simp only [List.countP_cons, List.filterMap_cons, Edit.isChange,
          Edit.kept?, Edit.old?, Edit.new?, List.length_cons,
          Bool.false_eq_true, if_false,
          if_true] <;>
        omega

/-! ## The longest start and the longest stop -/

/-- The parts make up two lists; the start is the longest that these have in
common, and the stop the longest that what remains has in common. -/
structure Cut.Trims (parts : Cut α) (old new : List α) : Prop where
  old_eq : parts.start ++ parts.old ++ parts.stop = old
  new_eq : parts.start ++ parts.new ++ parts.stop = new
  longestStart : ∀ other : List α, other <+: old → other <+: new →
    other.length ≤ parts.start.length
  longestStop : ∀ other : List α, other <:+ parts.old ++ parts.stop →
    other <:+ parts.new ++ parts.stop → other.length ≤ parts.stop.length

namespace Cut.Trims

variable {parts others : Cut α} {old new : List α}

theorem start_eq (hparts : parts.Trims old new)
    (hothers : others.Trims old new) :
    parts.start = others.start := by
  have hleft : ∀ {cut : Cut α}, cut.Trims old new → cut.start <+: old ∧
      cut.start <+: new := by
    intro cut hcut
    rw [← hcut.old_eq, ← hcut.new_eq, List.append_assoc, List.append_assoc]
    exact ⟨List.prefix_append _ _, List.prefix_append _ _⟩
  obtain ⟨hold, hnew⟩ := hleft hparts
  obtain ⟨hold', hnew'⟩ := hleft hothers
  have hlength : parts.start.length = others.start.length :=
    le_antisymm (hothers.longestStart _ hold hnew)
      (hparts.longestStart _ hold' hnew')
  exact (List.prefix_of_prefix_length_le hold hold' hlength.le).eq_of_length
    hlength

theorem stop_eq (hparts : parts.Trims old new) (hothers : others.Trims old new)
    (hold : parts.old ++ parts.stop = others.old ++ others.stop)
    (hnew : parts.new ++ parts.stop = others.new ++ others.stop) :
    parts.stop = others.stop := by
  have hlength : parts.stop.length = others.stop.length := by
    apply le_antisymm
    · apply hothers.longestStop
      · exact hold ▸ List.suffix_append _ _
      · exact hnew ▸ List.suffix_append _ _
    · apply hparts.longestStop
      · exact hold ▸ List.suffix_append _ _
      · exact hnew ▸ List.suffix_append _ _
  exact (List.append_inj' hold hlength).2

/-- There is only one way to trim two lists. -/
theorem unique (hparts : parts.Trims old new)
    (hothers : others.Trims old new) :
    parts = others := by
  have hstart := hparts.start_eq hothers
  have hold : parts.old ++ parts.stop = others.old ++ others.stop := by
    apply @List.append_cancel_left _ parts.start
    rw [← List.append_assoc, hparts.old_eq, hstart, ← List.append_assoc,
      hothers.old_eq]
  have hnew : parts.new ++ parts.stop = others.new ++ others.stop := by
    apply @List.append_cancel_left _ parts.start
    rw [← List.append_assoc, hparts.new_eq, hstart, ← List.append_assoc,
      hothers.new_eq]
  have hstop := hparts.stop_eq hothers hold hnew
  obtain ⟨start, old', new', stop⟩ := parts
  obtain ⟨start', old'', new'', stop'⟩ := others
  obtain rfl : start = start' := hstart
  obtain rfl : stop = stop' := hstop
  obtain rfl := List.append_cancel_right hold
  obtain rfl := List.append_cancel_right hnew
  rfl

end Cut.Trims

section Differences

variable [DecidableEq α]

theorem length_le_of_splitCommon {other xs ys : List α} (hxs : other <+: xs)
    (hys : other <+: ys) :
    other.length ≤ (splitCommon xs ys).1.length := by
  fun_induction splitCommon xs ys generalizing other with
  | case1 xs y ys common rest hcommon ih =>
      rw [hcommon] at ih
      cases other with
      | nil => exact Nat.zero_le _
      | cons first other =>
          have hmore :=
            ih (List.cons_prefix_cons.mp hxs).2
              (List.cons_prefix_cons.mp hys).2
          exact Nat.succ_le_succ hmore
  | case2 x xs y ys hne =>
      cases other with
      | nil => exact Nat.zero_le _
      | cons first other =>
          have hx := (List.cons_prefix_cons.mp hxs).1
          have hy := (List.cons_prefix_cons.mp hys).1
          exact absurd (hx.symm.trans hy) hne
  | case3 xs ys hends =>
      cases xs with
      | nil => rw [List.prefix_nil.mp hxs]
      | cons x xs =>
          cases ys with
          | nil => rw [List.prefix_nil.mp hys]
          | cons y ys => exact absurd rfl (hends x xs y ys rfl)

theorem trims_cut (old new : List α) : (cut old new).Trims old new where
  old_eq := (cut_spec old new).1
  new_eq := (cut_spec old new).2
  longestStart := fun _ hold hnew => length_le_of_splitCommon hold hnew
  longestStop := by
    intro other hold hnew
    obtain ⟨hrestOld, hrestNew⟩ :=
      splitCommon_reverse_spec (splitCommon old new).2.1
        (splitCommon old new).2.2
    change other <:+ (splitCommon _ _).2.1.reverse ++
      (splitCommon _ _).1.reverse at hold
    change other <:+ (splitCommon _ _).2.2.reverse ++
      (splitCommon _ _).1.reverse at hnew
    rw [hrestOld] at hold
    rw [hrestNew] at hnew
    change other.length ≤ (splitCommon _ _).1.reverse.length
    rw [List.length_reverse, ← @List.length_reverse _ other]
    exact length_le_of_splitCommon (List.reverse_prefix.mpr hold)
      (List.reverse_prefix.mpr hnew)

/-! ## No script keeps more -/

theorem length_keptLines_diff (old new : List α) :
    (keptLines (diff old new)).length = (cut old new).start.length +
      (keptLines (diffMiddle (cut old new).old (cut old new).new)).length +
      (cut old new).stop.length := by
  rw [diff_eq, keptLines_append, keptLines_append, keptLines_map_same,
    keptLines_map_same, List.length_append, List.length_append]

theorem sharesAtMost_diffMiddle {old new : List α}
    (hcells : (old.length + 1) * (new.length + 1) ≤ maxDiffCells) :
    SharesAtMost (keptLines (diffMiddle old new)).length old new := by
  have hbest := Script.best_first_rows old new
  unfold diffMiddle
  rw [if_pos hcells, hbest.kept_eq]
  exact hbest.most

theorem sharesAtMost_diff {old new : List α}
    (hcells : ((cut old new).old.length + 1) * ((cut old new).new.length + 1) ≤
      maxDiffCells) :
    SharesAtMost (keptLines (diff old new)).length old new := by
  have hwhole :=
    ((sharesAtMost_diffMiddle hcells).append_left
      (cut old new).start).append_right (cut old new).stop
  obtain ⟨hold, hnew⟩ := cut_spec old new
  rwa [hold, hnew, ← length_keptLines_diff] at hwhole

/-- Where the middles of two lists fit in the table, their difference keeps as
many lines as the longest list that both hold in order, and no script between
the lists has fewer changes. -/
theorem isGreatest_keptLines_diff {old new : List α} {parts : Cut α}
    (htrims : parts.Trims old new)
    (hcells : (parts.old.length + 1) * (parts.new.length + 1) ≤ maxDiffCells) :
    IsGreatest {n | ∃ common : List α, common.Sublist old ∧
      common.Sublist new ∧ common.length = n}
        (keptLines (diff old new)).length ∧
      ∀ edits, IsScript edits old new →
        changeCount (diff old new) ≤ changeCount edits := by
  obtain rfl := htrims.unique (trims_cut old new)
  have hscript := isScript_diff old new
  have hmost := sharesAtMost_diff hcells
  refine ⟨⟨⟨_, hscript.keptLines_sublist.1, hscript.keptLines_sublist.2, rfl⟩,
    ?_⟩, ?_⟩
  · rintro n ⟨common, hold, hnew, rfl⟩
    exact hmost common hold hnew
  · intro edits hedits
    have hkept := hmost _ hedits.keptLines_sublist.1 hedits.keptLines_sublist.2
    have hhere := hscript.changeCount_add
    have hthere := hedits.changeCount_add
    omega

end Differences

/-- Two lists that share a start and a stop, with repeated lines between
them. -/
def sampleOld : List Char := "(abcabba)".toList

def sampleNew : List Char := "(cbabac)".toList

theorem isGreatest_keptLines_sample :
    (keptLines (diff sampleOld sampleNew)).length = 6 ∧
      changeCount (diff sampleOld sampleNew) = 5 ∧
      (∀ common : List Char, common.Sublist sampleOld →
        common.Sublist sampleNew →
        common.length ≤ 6) ∧
      ∀ edits, IsScript edits sampleOld sampleNew → 5 ≤ changeCount edits := by
  have hkept : (keptLines (diff sampleOld sampleNew)).length = 6 := by
    decide +kernel
  have hchanges : changeCount (diff sampleOld sampleNew) = 5 := by
    decide +kernel
  obtain ⟨hgreatest, hfewest⟩ :=
    isGreatest_keptLines_diff (trims_cut sampleOld sampleNew)
      (by decide +kernel)
  rw [hkept] at hgreatest
  rw [hchanges] at hfewest
  exact ⟨hkept, hchanges, fun common hold hnew =>
    hgreatest.2 ⟨common, hold, hnew, rfl⟩, hfewest⟩

end Reparse
