import Reparse.Proofs.Diff.Scripts
import Reparse.Proofs.Toy.Worded

/-!
# Differences show mismatches

A difference without a removed or an added line is one of a list and itself.
Since the lines of a tree tell the tree, the difference of two trees has such a
line exactly when the trees are not the same.
-/

namespace Reparse

/-! ## Lists -/

section Lists

variable {α : Type}

/-- The script takes a line away or puts one in. -/
def Changes (edits : List (Edit α)) : Prop :=
  ∃ line, Edit.removed line ∈ edits ∨ Edit.added line ∈ edits

theorem not_changes_map_same (lines : List α) :
    ¬ Changes (lines.map Edit.same) := by
  rintro ⟨line, hremoved | hadded⟩
  · obtain ⟨kept, -, hkept⟩ := List.mem_map.mp hremoved
    cases hkept
  · obtain ⟨kept, -, hkept⟩ := List.mem_map.mp hadded
    cases hkept

theorem IsScript.eq_of_not_changes {edits : List (Edit α)} {old new : List α}
    (hscript : IsScript edits old new) (hsame : ¬ Changes edits) :
    old = new := by
  rw [← hscript.old, ← hscript.new]
  apply List.filterMap_congr
  intro edit hedit
  cases edit with
  | same line => rfl
  | removed line => exact absurd ⟨line, .inl hedit⟩ hsame
  | added line => exact absurd ⟨line, .inr hedit⟩ hsame

variable [DecidableEq α]

theorem splitCommon_self (lines : List α) :
    splitCommon lines lines = (lines, [], []) := by
  induction lines with
  | nil => rfl
  | cons line lines ih =>
      rw [splitCommon, if_pos rfl, ih]

theorem diff_self (lines : List α) :
    diff lines lines = lines.map Edit.same := by
  have hmiddle : diffMiddle ([] : List α) [] = [] := by
    unfold diffMiddle
    split_ifs <;> rfl
  unfold diff
  rw [splitCommon_self]
  change lines.map Edit.same ++ diffMiddle [] [] ++ [] = _
  rw [hmiddle, List.append_nil, List.append_nil]

theorem changes_diff_iff {old new : List α} :
    Changes (diff old new) ↔ old ≠ new := by
  constructor
  · rintro hchanges rfl
    rw [diff_self] at hchanges
    exact not_changes_map_same old hchanges
  · intro hne
    by_contra hsame
    exact hne ((isScript_diff old new).eq_of_not_changes hsame)

end Lists

/-! ## Trees -/

theorem Tree.worded_of_read {s : List Char} {n : Node}
    (hread : Node.read s = .ok n) (comments : Option (List Comment)) :
    Tree.Worded ⟨some n, comments⟩ := by
  intro root hroot
  obtain rfl := Option.mem_some.mp hroot
  exact (Node.legible_of_read hread).worded

/-- The difference of two trees shows a change exactly when the trees are not
the same.  The trees that are read from programs or from the notation fulfil
the condition on words. -/
theorem changes_iff_not_same :
    (∀ a b : Tree, a.Worded → b.Worded → a.LacksNaN → b.LacksNaN →
      a.comments.isSome = b.comments.isSome →
        (Changes (diff a.lines b.lines) ↔ a.same b = false)) ∧
      (∀ keep source identification tree,
        Toy.parse keep source identification = .ok tree → tree.Worded) ∧
      ∀ s n comments, Node.read s = .ok n →
        Tree.Worded ⟨some n, comments⟩ := by
  refine ⟨?_, fun keep source identification tree => Toy.worded_of_parse,
    fun s n comments hread => Tree.worded_of_read hread comments⟩
  intro a b ha hb hnans hnans' hcomments
  rw [changes_diff_iff, Ne,
    Tree.lines_eq_lines_iff_same ha hb hnans hnans' hcomments,
    Bool.not_eq_true]

/-- A tree whose string looks like the end of its node, with comments. -/
def commentedTree (comments : List String) : Tree :=
  ⟨some
    (.bare "send" [.atom .nil, .atom (.sym "f"),
      .node (.bare "str" [.atom (.str "\")) ; x")])]),
    some (comments.map fun text => ⟨text, none⟩)⟩

theorem worded_commentedTree (comments : List String) :
    (commentedTree comments).Worded := by
  have hsend : "send".toList.all Notation.isWordChar = true := by
    decide +kernel
  have hcalled : "f".toList.all Notation.isWordChar = true := by decide +kernel
  have hstr : "str".toList.all Notation.isWordChar = true := by decide +kernel
  have hleaf : (Node.bare "str" [.atom (.str "\")) ; x")]).Worded := by
    apply Node.worded_mk ⟨by decide, isWord_of_all hstr⟩
    exact List.forall_mem_singleton.mpr (Child.worded_atom trivial)
  intro root hroot
  obtain rfl := Option.mem_some.mp hroot
  apply Node.worded_mk ⟨by decide, isWord_of_all hsend⟩
  intro c hc
  simp only [List.mem_cons, List.not_mem_nil, or_false] at hc
  rcases hc with rfl | rfl | rfl
  · exact Child.worded_atom trivial
  · exact Child.worded_atom (isWord_of_all hcalled)
  · exact Child.worded_node_iff.mpr hleaf

theorem lacksNaN_commentedTree (comments : List String) :
    (commentedTree comments).LacksNaN := by
  have hatoms :
      (commentedTree comments).atoms = [.nil, .sym "f", .str "\")) ; x"] := rfl
  intro x hx
  rw [hatoms] at hx
  simp at hx

/-- One comment of two lines is told from two comments, although both are
rendered as one text. -/
theorem changes_splicedComments :
    Changes
      (diff (commentedTree ["x\n; y"]).lines
        (commentedTree ["x", "y"]).lines) ∧
      (commentedTree ["x\n; y"]).render =
        (commentedTree ["x", "y"]).render := by
  have hsame :
      (commentedTree ["x\n; y"]).same (commentedTree ["x", "y"]) = false := by
    decide +kernel
  have hrender :
      (commentedTree ["x\n; y"]).render =
        (commentedTree ["x", "y"]).render := by
    decide +kernel
  obtain ⟨htrees, -, -⟩ := changes_iff_not_same
  have hchanges :=
    htrees _ _ (worded_commentedTree ["x\n; y"])
      (worded_commentedTree ["x", "y"]) (lacksNaN_commentedTree _)
      (lacksNaN_commentedTree _) rfl
  exact ⟨hchanges.mpr hsame, hrender⟩

end Reparse
