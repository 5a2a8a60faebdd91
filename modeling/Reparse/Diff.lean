import Reparse.Tree.Notation

/-!
# Line differences

A difference of two lists is a script of lines that stay, lines taken away and
lines put in.  What the lists have in common at their start and at their end
stays; the middles are compared by a longest common subsequence, or replaced as
a whole when the table for that would be too large.

`Script.rows` keeps, for every suffix of the second list, a best script from
the first.  Where a line can be taken away or put in with the same number of
lines kept, it is taken away.
-/

namespace Reparse

inductive Edit (α : Type) where
  | same (line : α)
  | removed (line : α)
  | added (line : α)
  deriving DecidableEq

/-- An edit script with the number of lines it keeps. -/
structure Script (α : Type) where
  kept : Nat
  edits : List (Edit α)

namespace Script

variable {α : Type}

def empty : Script α :=
  ⟨0, []⟩

def keep (line : α) (s : Script α) : Script α :=
  ⟨s.kept + 1, .same line :: s.edits⟩

def remove (line : α) (s : Script α) : Script α :=
  ⟨s.kept, .removed line :: s.edits⟩

def add (line : α) (s : Script α) : Script α :=
  ⟨s.kept, .added line :: s.edits⟩

/-- The script of a row for the whole list. -/
def first (row : List (Script α)) : Script α :=
  row.head?.getD empty

/-- The scripts from nothing to each suffix of `ys`, the longest first. -/
def baseRow : List α → List (Script α)
  | [] => [empty]
  | y :: ys =>
    let row := baseRow ys
    add y (first row) :: row

variable [DecidableEq α]

/-- The scripts from `x :: xs` to each suffix of `ys`, where `below` holds
those from `xs`. -/
def nextRow (x : α) : List α → List (Script α) → List (Script α)
  | [], below => [remove x (first below)]
  | y :: ys, below =>
    let right := nextRow x ys below.tail
    let down := first below
    let cell :=
      if x = y then keep x (first below.tail)
      else if (first right).kept ≤ down.kept then remove x down
      else add y (first right)
    cell :: right

/-- The best scripts from `xs` to each suffix of `ys`, the longest first. -/
def rows (ys : List α) : List α → List (Script α)
  | [] => baseRow ys
  | x :: xs => nextRow x ys (rows ys xs)

end Script

/-- The common start of two lists and what follows it in each. -/
def splitCommon {α : Type} [DecidableEq α] :
    List α → List α → List α × List α × List α
  | x :: xs, y :: ys =>
    if x = y then
      let (common, rest) := splitCommon xs ys
      (x :: common, rest)
    else ([], x :: xs, y :: ys)
  | xs, ys => ([], xs, ys)

/-- The largest table that is computed to compare two middles. -/
def maxDiffCells : Nat := 4000000

/-- A script between lists that begin and end differently. -/
def diffMiddle {α : Type} [DecidableEq α] (old new : List α) : List (Edit α) :=
  if (old.length + 1) * (new.length + 1) ≤ maxDiffCells then
    (Script.first (Script.rows new old)).edits
  else old.map .removed ++ new.map .added

def diff {α : Type} [DecidableEq α] (old new : List α) : List (Edit α) :=
  let (start, old, new) := splitCommon old new
  let (stop, old, new) := splitCommon old.reverse new.reverse
  start.map .same ++ diffMiddle old.reverse new.reverse ++
    stop.reverse.map .same

/-- A line after the mark of its edit: a blank, a minus or a plus. -/
def Edit.write : Edit (List Char) → List Char
  | same line => ' ' :: line
  | removed line => '-' :: line
  | added line => '+' :: line

def treeDiff (old new : Tree) : String :=
  String.intercalate "\n" ((diff old.lines new.lines).map fun e =>
    String.ofList e.write)

end Reparse
