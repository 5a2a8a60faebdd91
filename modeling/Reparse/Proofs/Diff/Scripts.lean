import Reparse.Diff
import Mathlib.Tactic

/-!
# Differences as edit scripts

A script leads from one list to another when the lines that stay and those
taken away are the first list, and the lines that stay and those put in are the
second.  Here a difference is shown to lead from the old list to the new one,
and every script of the table to be a best one: no list that both lists hold in
order has more lines than the script keeps.

The table has one row for each suffix of the old list, and a row one script for
each suffix of the new list; what a cell needs are the scripts below it, to its
right and across the corner.
-/

namespace Reparse

variable {α : Type}

/-! ## Scripts -/

namespace Edit

/-- The line of the old list that an edit passes. -/
def old? : Edit α → Option α
  | same line => some line
  | removed line => some line
  | added _ => none

/-- The line of the new list that an edit passes. -/
def new? : Edit α → Option α
  | same line => some line
  | removed _ => none
  | added line => some line

def kept? : Edit α → Option α
  | same line => some line
  | removed _ => none
  | added _ => none

end Edit

/-- The edits lead from the old list to the new one. -/
structure IsScript (edits : List (Edit α)) (old new : List α) : Prop where
  old : edits.filterMap Edit.old? = old
  new : edits.filterMap Edit.new? = new

def keptLines (edits : List (Edit α)) : List α :=
  edits.filterMap Edit.kept?

namespace IsScript

variable {edits more : List (Edit α)} {old old' new new' : List α}

theorem nil : IsScript ([] : List (Edit α)) [] [] :=
  ⟨rfl, rfl⟩

theorem append (hfirst : IsScript edits old new)
    (hmore : IsScript more old' new') :
    IsScript (edits ++ more) (old ++ old') (new ++ new') := by
  constructor
  · rw [List.filterMap_append, hfirst.old, hmore.old]
  · rw [List.filterMap_append, hfirst.new, hmore.new]

theorem same (line : α) (hscript : IsScript edits old new) :
    IsScript (.same line :: edits) (line :: old) (line :: new) where
  old := congrArg (line :: ·) hscript.old
  new := congrArg (line :: ·) hscript.new

theorem removed (line : α) (hscript : IsScript edits old new) :
    IsScript (.removed line :: edits) (line :: old) new where
  old := congrArg (line :: ·) hscript.old
  new := hscript.new

theorem added (line : α) (hscript : IsScript edits old new) :
    IsScript (.added line :: edits) old (line :: new) where
  old := hscript.old
  new := congrArg (line :: ·) hscript.new

theorem map_same (lines : List α) :
    IsScript (lines.map .same) lines lines := by
  induction lines with
  | nil => exact nil
  | cons line lines ih => exact ih.same line

theorem map_removed (lines : List α) :
    IsScript (lines.map .removed) lines [] := by
  induction lines with
  | nil => exact nil
  | cons line lines ih => exact ih.removed line

theorem map_added (lines : List α) : IsScript (lines.map .added) [] lines := by
  induction lines with
  | nil => exact nil
  | cons line lines ih => exact ih.added line

/-- The lines that stay are lines of both lists, in order. -/
theorem keptLines_sublist (hscript : IsScript edits old new) :
    (keptLines edits).Sublist old ∧ (keptLines edits).Sublist new := by
  rw [← hscript.old, ← hscript.new]
  clear hscript
  induction edits with
  | nil => exact ⟨.slnil, .slnil⟩
  | cons edit edits ih =>
      obtain ⟨hold, hnew⟩ := ih
      cases edit with
      | same line => exact ⟨hold.cons_cons line, hnew.cons_cons line⟩
      | removed line => exact ⟨hold.cons line, hnew⟩
      | added line => exact ⟨hold, hnew.cons line⟩

end IsScript

/-! ## Lines in common -/

/-- No list that both lists hold in order has more than `bound` lines. -/
def SharesAtMost (bound : Nat) (xs ys : List α) : Prop :=
  ∀ common : List α, common.Sublist xs → common.Sublist ys →
    common.length ≤ bound

namespace SharesAtMost

variable {bound : Nat} {x y : α} {xs ys : List α}

theorem nil_left (ys : List α) : SharesAtMost 0 [] ys := by
  intro common hnil _
  rw [List.sublist_nil.mp hnil]
  rfl

theorem nil_right (xs : List α) : SharesAtMost 0 xs [] := by
  intro common _ hnil
  rw [List.sublist_nil.mp hnil]
  rfl

/-- A line in front of both lists is one more line in common. -/
theorem cons_cons (hbound : SharesAtMost bound xs ys) (x : α) :
    SharesAtMost (bound + 1) (x :: xs) (x :: ys) := by
  intro common hxs hys
  cases common with
  | nil => exact Nat.zero_le _
  | cons first common =>
      have hlength : common.length ≤ bound := by
        apply hbound
        · exact hxs.tail
        · exact hys.tail
      rw [List.length_cons]
      omega

/-- Of two different lines in front, one has no part in a common list. -/
theorem of_ne (hne : x ≠ y) (hdown : SharesAtMost bound xs (y :: ys))
    (hright : SharesAtMost bound (x :: xs) ys) :
    SharesAtMost bound (x :: xs) (y :: ys) := by
  intro common hxs hys
  cases hxs with
  | cons _ hxs => exact hdown common hxs hys
  | @cons_cons common _ _ hrest =>
      cases hys with
      | cons _ hys => exact hright _ (hrest.cons_cons x) hys
      | cons_cons _ _ => exact absurd rfl hne

theorem mono {bound' : Nat} (hbound : SharesAtMost bound xs ys)
    (hle : bound ≤ bound') :
    SharesAtMost bound' xs ys :=
  fun common hxs hys => (hbound common hxs hys).trans hle

end SharesAtMost

/-! ## The table -/

namespace Script

/-- The script leads from one list to the other, counts the lines that stay,
and keeps as many as there can be. -/
structure Best (xs ys : List α) (s : Script α) : Prop where
  isScript : IsScript s.edits xs ys
  kept_eq : (keptLines s.edits).length = s.kept
  most : SharesAtMost s.kept xs ys

section Cells

variable {s down right : Script α} {x y : α} {xs ys : List α}

theorem best_empty : Best [] [] (empty : Script α) :=
  ⟨.nil, rfl, .nil_left []⟩

theorem Best.addToNil (hbest : Best [] ys s) (y : α) :
    Best [] (y :: ys) (add y s) where
  isScript := hbest.isScript.added y
  kept_eq := hbest.kept_eq
  most := (SharesAtMost.nil_left _).mono (Nat.zero_le _)

theorem Best.removeToNil (hbest : Best xs [] s) (x : α) :
    Best (x :: xs) [] (remove x s) where
  isScript := hbest.isScript.removed x
  kept_eq := hbest.kept_eq
  most := (SharesAtMost.nil_right _).mono (Nat.zero_le _)

theorem Best.keep (hbest : Best xs ys s) (x : α) :
    Best (x :: xs) (x :: ys) (keep x s) where
  isScript := hbest.isScript.same x
  kept_eq := congrArg Nat.succ hbest.kept_eq
  most := hbest.most.cons_cons x

theorem Best.remove (hdown : Best xs (y :: ys) down)
    (hright : Best (x :: xs) ys right) (hne : x ≠ y)
    (hle : right.kept ≤ down.kept) :
    Best (x :: xs) (y :: ys) (remove x down) where
  isScript := hdown.isScript.removed x
  kept_eq := hdown.kept_eq
  most := .of_ne hne hdown.most (hright.most.mono hle)

theorem Best.add (hdown : Best xs (y :: ys) down)
    (hright : Best (x :: xs) ys right) (hne : x ≠ y)
    (hle : down.kept ≤ right.kept) :
    Best (x :: xs) (y :: ys) (add y right) where
  isScript := hright.isScript.added y
  kept_eq := hright.kept_eq
  most := .of_ne hne (hdown.most.mono hle) hright.most

end Cells

section Rows

variable {x : α} {xs ys : List α} {row below : List (Script α)}

/-- The row holds a best script from `xs` to each suffix of the second list. -/
def IsRow (xs : List α) : List α → List (Script α) → Prop
  | [], row => ∃ s, Best xs [] s ∧ row = [s]
  | y :: ys, row =>
      ∃ s rest, Best xs (y :: ys) s ∧ IsRow xs ys rest ∧ row = s :: rest

theorem IsRow.first (hrow : IsRow xs ys row) : Best xs ys (first row) := by
  cases ys with
  | nil =>
      obtain ⟨s, hs, rfl⟩ := hrow
      exact hs
  | cons y ys =>
      obtain ⟨s, rest, hs, -, rfl⟩ := hrow
      exact hs

theorem isRow_baseRow (ys : List α) : IsRow [] ys (baseRow ys) := by
  induction ys with
  | nil => exact ⟨empty, best_empty, rfl⟩
  | cons y ys ih => exact ⟨_, _, ih.first.addToNil y, ih, rfl⟩

variable [DecidableEq α]

theorem isRow_nextRow (x : α) (hbelow : IsRow xs ys below) :
    IsRow (x :: xs) ys (nextRow x ys below) := by
  induction ys generalizing below with
  | nil => exact ⟨_, hbelow.first.removeToNil x, rfl⟩
  | cons y ys ih =>
      obtain ⟨down, rest, hdown, hrest, rfl⟩ := hbelow
      have hright := ih hrest
      refine ⟨_, _, ?_, hright, rfl⟩
      -- The corner, the cell below and the cell to the right decide.
      rw [List.tail_cons]
      change Best (x :: xs) (y :: ys)
        (if x = y then Script.keep x (Script.first rest)
          else if (Script.first (nextRow x ys rest)).kept ≤ down.kept
            then Script.remove x down
          else Script.add y (Script.first (nextRow x ys rest)))
      split_ifs with heq hle
      · subst heq
        exact hrest.first.keep x
      · exact hdown.remove hright.first heq hle
      · exact hdown.add hright.first heq (Nat.le_of_not_le hle)

theorem isRow_rows (xs ys : List α) : IsRow xs ys (rows ys xs) := by
  induction xs with
  | nil => exact isRow_baseRow ys
  | cons x xs ih => exact isRow_nextRow x ih

end Rows

theorem best_first_rows [DecidableEq α] (xs ys : List α) :
    Best xs ys (first (rows ys xs)) :=
  (isRow_rows xs ys).first

end Script

/-! ## Starts, stops and middles -/

section Differences

variable [DecidableEq α]

theorem splitCommon_spec (xs ys : List α) :
    (splitCommon xs ys).1 ++ (splitCommon xs ys).2.1 = xs ∧
      (splitCommon xs ys).1 ++ (splitCommon xs ys).2.2 = ys := by
  fun_induction splitCommon xs ys with
  | case1 xs y ys common rest hcommon ih =>
      rw [hcommon] at ih
      exact ⟨congrArg (y :: ·) ih.1, congrArg (y :: ·) ih.2⟩
  | case2 => exact ⟨rfl, rfl⟩
  | case3 => exact ⟨rfl, rfl⟩

theorem splitCommon_reverse_spec (xs ys : List α) :
    (splitCommon xs.reverse ys.reverse).2.1.reverse ++
        (splitCommon xs.reverse ys.reverse).1.reverse = xs ∧
      (splitCommon xs.reverse ys.reverse).2.2.reverse ++
        (splitCommon xs.reverse ys.reverse).1.reverse = ys := by
  obtain ⟨hxs, hys⟩ := splitCommon_spec xs.reverse ys.reverse
  rw [← List.reverse_append, ← List.reverse_append, hxs, hys]
  exact ⟨List.reverse_reverse xs, List.reverse_reverse ys⟩

theorem isScript_diffMiddle (old new : List α) :
    IsScript (diffMiddle old new) old new := by
  unfold diffMiddle
  split_ifs
  · exact (Script.best_first_rows old new).isScript
  · have hblocks := (IsScript.map_removed old).append (IsScript.map_added new)
    rwa [List.append_nil, List.nil_append] at hblocks

/-- The parts into which two lists are cut before they are compared. -/
structure Cut (α : Type) where
  start : List α
  old : List α
  new : List α
  stop : List α

def cut (old new : List α) : Cut α :=
  let (start, old, new) := splitCommon old new
  let (stop, old, new) := splitCommon old.reverse new.reverse
  ⟨start, old.reverse, new.reverse, stop.reverse⟩

theorem diff_eq (old new : List α) :
    diff old new = (cut old new).start.map .same ++
      diffMiddle (cut old new).old (cut old new).new ++
        (cut old new).stop.map .same := rfl

theorem cut_spec (old new : List α) :
    (cut old new).start ++ (cut old new).old ++ (cut old new).stop = old ∧
      (cut old new).start ++ (cut old new).new ++ (cut old new).stop =
        new := by
  obtain ⟨hold, hnew⟩ := splitCommon_spec old new
  obtain ⟨hrestOld, hrestNew⟩ :=
    splitCommon_reverse_spec (splitCommon old new).2.1
      (splitCommon old new).2.2
  rw [List.append_assoc, List.append_assoc]
  unfold cut
  dsimp only
  rw [hrestOld, hrestNew]
  exact ⟨hold, hnew⟩

theorem isScript_diff (old new : List α) :
    IsScript (diff old new) old new := by
  have hparts := ((IsScript.map_same (cut old new).start).append
    (isScript_diffMiddle (cut old new).old (cut old new).new)).append
    (IsScript.map_same (cut old new).stop)
  obtain ⟨hold, hnew⟩ := cut_spec old new
  rwa [← diff_eq, hold, hnew] at hparts

/-- A difference gives back both lists. -/
theorem diff_lossless (old new : List α) :
    (diff old new).filterMap Edit.old? = old ∧
      (diff old new).filterMap Edit.new? = new :=
  ⟨(isScript_diff old new).old, (isScript_diff old new).new⟩

end Differences

end Reparse
