import Reparse.Proofs.Tree.Places
import Reparse.Proofs.Tree.WellFormed

/-!
# Trees told by their lines

Trees whose kinds and symbols are words, and whose numbers are not NaN, have
the same lines only when they are the same.  Joined, the lines of a node spell
it, and a spelling is read back by a reader with levels enough; so nodes of any
height are told apart, although `Node.read` stops at a fixed one.

The character that begins a line tells what the line belongs to: a parenthesis
opens the root, a blank stands before all that lies below it, `nil` stands for
no root and a semicolon before a comment.
-/

namespace Reparse

open Text Notation

/-- Kinds and symbols are words, and nodes may lie as deep as they like. -/
structure Node.Worded (n : Node) : Prop where
  kinds : ∀ kind ∈ n.kinds, kind ≠ "" ∧ IsWord kind.toList
  atoms : ∀ a ∈ n.atoms, a.Fits

def Tree.Worded (tree : Tree) : Prop :=
  ∀ root ∈ tree.root, root.Worded

def Tree.LacksNaN (tree : Tree) : Prop :=
  ∀ x, Atom.float x ∈ tree.atoms → x.isNaN = false

/-- What `Node.Worded` asks of the node, if the child is one, or of the
atom. -/
structure Child.Worded (c : Child) : Prop where
  kinds : ∀ kind ∈ c.kinds, kind ≠ "" ∧ IsWord kind.toList
  atoms : ∀ a ∈ c.atoms, a.Fits

theorem Child.worded_node_iff {n : Node} :
    (Child.node n).Worded ↔ n.Worded := by
  constructor
  · intro hchild
    exact ⟨hchild.kinds, hchild.atoms⟩
  · intro hnode
    exact ⟨hnode.kinds, hnode.atoms⟩

theorem Child.worded_atom {a : Atom} (hfits : a.Fits) :
    (Child.atom a).Worded where
  kinds := by
    intro kind hkind
    cases hkind
  atoms := by
    intro b hb
    obtain rfl := List.mem_singleton.mp hb
    exact hfits

theorem Node.worded_mk {kind : String} {children : List Child}
    {span : Option Span} (hkind : kind ≠ "" ∧ IsWord kind.toList)
    (hchildren : ∀ c ∈ children, c.Worded) :
    (Node.mk kind children span).Worded := by
  have hbelow : (∀ k ∈ Child.kindsList children, k ≠ "" ∧ IsWord k.toList) ∧
      ∀ a ∈ Child.atomsList children, a.Fits := by
    induction children with
    | nil => simp [Child.kindsList, Child.atomsList]
    | cons c cs ih =>
        obtain ⟨hc, hcs⟩ := List.forall_mem_cons.mp hchildren
        obtain ⟨hkinds, hatoms⟩ := ih hcs
        rw [Child.kindsList, Child.atomsList]
        exact ⟨List.forall_mem_append.mpr ⟨hc.kinds, hkinds⟩,
          List.forall_mem_append.mpr ⟨hc.atoms, hatoms⟩⟩
  constructor
  · rw [Node.kinds]
    exact List.forall_mem_cons.mpr ⟨hkind, hbelow.1⟩
  · exact hbelow.2

theorem Node.Legible.worded {n : Node} (hlegible : n.Legible) : n.Worded := by
  obtain ⟨hkinds, hatoms, -⟩ := Node.fits_iff.mp (Node.legible_iff.mp hlegible)
  exact ⟨hkinds, hatoms⟩

/-! ## Nodes -/

section Nodes

variable {n m : Node} {s : List Char}

theorem Node.Worded.fits (hworded : n.Worded) {depth : Nat}
    (hdepth : n.height ≤ depth) :
    n.Fits depth :=
  Node.fits_iff.mpr ⟨hworded.kinds, hworded.atoms, hdepth⟩

/-- Nodes with one spelling are read as one node. -/
theorem Node.reread_eq_of_spells (hn : n.Worded) (hm : m.Worded)
    (hspells : n.Spells s) (hspells' : m.Spells s) : n.reread = m.reread := by
  have hfirst :
      Reads (readNode 0 (max n.height m.height) (s ++ [])) n.reread [] :=
    hspells.reads (hn.fits (le_max_left _ _))
  have hsecond :
      Reads (readNode 0 (max n.height m.height) (s ++ [])) m.reread [] :=
    hspells'.reads (hm.fits (le_max_right _ _))
  obtain ⟨left, -, hread⟩ := hfirst
  obtain ⟨left', -, hread'⟩ := hsecond
  have hsame := Except.ok.inj (hread.symm.trans hread')
  exact congrArg Prod.fst hsame

theorem Node.reread_eq_withoutSpans
    (hnans : ∀ x, Atom.float x ∈ n.atoms → x.isNaN = false) :
    n.reread = n.withoutSpans := by
  have hsettled : ∀ a ∈ n.atoms, a.settled = a := by
    intro a ha
    apply Atom.settled_eq_self_iff.mpr
    rintro x rfl hnan
    rw [hnans x ha] at hnan
    cases hnan
  rw [Node.reread, Node.mapAtoms_eq_self hsettled]

theorem Node.lines_eq_iff (hn : n.Worded) (hm : m.Worded)
    (hnans : ∀ x, Atom.float x ∈ n.atoms → x.isNaN = false)
    (hnans' : ∀ x, Atom.float x ∈ m.atoms → x.isNaN = false) :
    n.lines = m.lines ↔ n.withoutSpans = m.withoutSpans := by
  constructor
  · intro hlines
    have hspells := m.spells_lines
    rw [← hlines] at hspells
    have hreread := Node.reread_eq_of_spells hn hm n.spells_lines hspells
    rwa [Node.reread_eq_withoutSpans hnans,
      Node.reread_eq_withoutSpans hnans'] at hreread
  · intro hsame
    rw [Node.lines, Node.lines, ← n.linesAt_withoutSpans,
      ← m.linesAt_withoutSpans, hsame]

end Nodes

/-! ## How lines begin -/

section Beginnings

theorem mem_closeLast {line : List Char} {lines : List (List Char)}
    (hline : line ∈ closeLast lines) :
    ∃ before ∈ lines, before <+: line := by
  induction lines with
  | nil => cases hline
  | cons first lines ih =>
      cases lines with
      | nil =>
          obtain rfl := List.mem_singleton.mp hline
          exact ⟨first, List.mem_cons_self, List.prefix_append _ _⟩
      | cons second lines =>
          rcases List.mem_cons.mp hline with rfl | hline
          · exact ⟨line, List.mem_cons_self, List.prefix_refl _⟩
          · obtain ⟨before, hbefore, hstart⟩ := ih hline
            exact ⟨before, List.mem_cons_of_mem _ hbefore, hstart⟩

theorem indent_succ (depth : Nat) :
    indent (depth + 1) = indent depth ++ [' ', ' '] := by
  unfold indent
  rw [Nat.mul_succ, List.replicate_add]
  rfl

mutual

theorem Node.indent_prefix_linesAt : ∀ (n : Node) (depth : Nat),
    ∀ line ∈ n.linesAt depth, indent depth <+: line
  | .mk kind children span, depth => by
      intro line hline
      rw [Node.linesAt] at hline
      split at hline
      · obtain rfl := List.mem_singleton.mp hline
        exact List.prefix_append _ _
      · obtain ⟨before, hbefore, hstart⟩ := mem_closeLast hline
        rcases List.mem_cons.mp hbefore with rfl | hbefore
        · exact (List.prefix_append _ _).trans hstart
        · have hdeeper :=
            Child.indent_prefix_linesAtList children (depth + 1) before hbefore
          rw [indent_succ] at hdeeper
          exact ((List.prefix_append _ _).trans hdeeper).trans hstart

theorem Child.indent_prefix_linesAt : ∀ (c : Child) (depth : Nat),
    ∀ line ∈ c.linesAt depth, indent depth <+: line
  | .node n, depth => n.indent_prefix_linesAt depth
  | .atom a, depth => by
      intro line hline
      obtain rfl := List.mem_singleton.mp hline
      exact List.prefix_append _ _

theorem Child.indent_prefix_linesAtList : ∀ (cs : List Child) (depth : Nat),
    ∀ line ∈ Child.linesAtList depth cs, indent depth <+: line
  | [], _ => by
      intro line hline
      cases hline
  | c :: cs, depth => by
      intro line hline
      rcases List.mem_append.mp hline with hline | hline
      · exact c.indent_prefix_linesAt depth line hline
      · exact Child.indent_prefix_linesAtList cs depth line hline

end

theorem head?_of_starts {c : Char} {s line : List Char}
    (hstart : c :: s <+: line) :
    line.head? = some c := by
  obtain ⟨rest, rfl⟩ := hstart
  rfl

/-- A line of a node that stands at the left begins with a parenthesis or a
blank. -/
theorem Node.head?_of_mem_lines {n : Node} {line : List Char}
    (hline : line ∈ n.lines) :
    line.head? = some '(' ∨ line.head? = some ' ' := by
  cases n with
  | mk kind children span =>
      rw [Node.lines, Node.linesAt] at hline
      split at hline
      · obtain rfl := List.mem_singleton.mp hline
        exact .inl rfl
      · obtain ⟨before, hbefore, hstart⟩ := mem_closeLast hline
        rcases List.mem_cons.mp hbefore with rfl | hbefore
        · exact .inl (head?_of_starts hstart)
        · have hdeeper :=
            Child.indent_prefix_linesAtList children 1 before hbefore
          exact .inr (head?_of_starts (hdeeper.trans hstart))

theorem Node.lines_ne_nilLine (n : Node) : n.lines ≠ ["nil".toList] := by
  intro hlines
  have hmem : "nil".toList ∈ n.lines := by
    rw [hlines]
    exact List.mem_singleton_self _
  rcases Node.head?_of_mem_lines hmem with hhead | hhead
  · cases hhead
  · cases hhead

end Beginnings

/-! ## Trees -/

namespace Tree

def rootLines (tree : Tree) : List (List Char) :=
  match tree.root with
  | some root => root.lines
  | none => ["nil".toList]

def commentLines (tree : Tree) : List (List Char) :=
  (tree.comments.getD []).map fun comment => ';' :: ' ' :: comment.text.toList

theorem lines_eq (tree : Tree) :
    tree.lines = tree.rootLines ++ tree.commentLines := rfl

def isRootLine (line : List Char) : Bool :=
  line.head? != some ';'

theorem isRootLine_of_mem {tree : Tree} {line : List Char}
    (hline : line ∈ tree.rootLines) :
    isRootLine line = true := by
  unfold rootLines at hline
  cases hroot : tree.root with
  | none =>
      rw [hroot] at hline
      obtain rfl := List.mem_singleton.mp hline
      rfl
  | some root =>
      rw [hroot] at hline
      unfold isRootLine
      rcases Node.head?_of_mem_lines hline with hhead | hhead
      · rw [hhead]
        rfl
      · rw [hhead]
        rfl

theorem takeWhile_lines (tree : Tree) :
    tree.lines.takeWhile isRootLine = tree.rootLines := by
  rw [lines_eq,
    List.takeWhile_append_of_pos fun line hline => isRootLine_of_mem hline]
  have hcomments : tree.commentLines.takeWhile isRootLine = [] := by
    unfold commentLines
    cases tree.comments.getD [] with
    | nil => rfl
    | cons comment comments => rfl
  rw [hcomments, List.append_nil]

/-- The lines of two trees are the same when those of their roots and of their
comments are. -/
theorem lines_eq_lines_iff {a b : Tree} :
    a.lines = b.lines ↔ a.rootLines = b.rootLines ∧
      a.commentLines = b.commentLines := by
  constructor
  · intro hlines
    have hroot : a.rootLines = b.rootLines := by
      rw [← a.takeWhile_lines, ← b.takeWhile_lines, hlines]
    rw [a.lines_eq, b.lines_eq, hroot] at hlines
    exact ⟨hroot, List.append_cancel_left hlines⟩
  · rintro ⟨hroot, hcomments⟩
    rw [a.lines_eq, b.lines_eq, hroot, hcomments]

theorem commentLines_eq_iff {a b : Tree}
    (hcomments : a.comments.isSome = b.comments.isSome) :
    a.commentLines = b.commentLines ↔ a.sameComments b = true := by
  have hline : Function.Injective fun text : String =>
    ';' :: ' ' :: text.toList := by
    intro text text' hlines
    exact String.toList_inj.mp (List.cons.inj (List.cons.inj hlines).2).2
  have hmap : ∀ comments : List Comment,
      (comments.map fun comment => ';' :: ' ' :: comment.text.toList) =
        (comments.map (·.text)).map fun text => ';' :: ' ' :: text.toList := by
    intro comments
    rw [List.map_map]
    rfl
  unfold commentLines sameComments
  cases ha : a.comments with
  | none =>
      cases hb : b.comments with
      | none => simp
      | some ds => simp [ha, hb] at hcomments
  | some cs =>
      cases hb : b.comments with
      | none => simp [ha, hb] at hcomments
      | some ds =>
          rw [Option.getD_some, Option.getD_some, hmap, hmap,
            hline.list_map.eq_iff, beq_iff_eq]

theorem rootLines_eq_iff {a b : Tree} (ha : a.Worded) (hb : b.Worded)
    (hnans : a.LacksNaN) (hnans' : b.LacksNaN) :
    a.rootLines = b.rootLines ↔ a.sameRoot b = true := by
  unfold rootLines sameRoot
  unfold LacksNaN atoms at hnans hnans'
  cases hroot : a.root with
  | none =>
      cases hroot' : b.root with
      | none => exact iff_of_true rfl rfl
      | some m => exact iff_of_false m.lines_ne_nilLine.symm Bool.false_ne_true
  | some n =>
      cases hroot' : b.root with
      | none => exact iff_of_false n.lines_ne_nilLine Bool.false_ne_true
      | some m =>
          rw [hroot] at hnans
          rw [hroot'] at hnans'
          rw [Node.same_eq_true_iff]
          apply Node.lines_eq_iff
          · exact ha n hroot
          · exact hb m hroot'
          · simpa using hnans
          · simpa using hnans'

theorem lines_eq_lines_iff_same {a b : Tree} (ha : a.Worded) (hb : b.Worded)
    (hnans : a.LacksNaN) (hnans' : b.LacksNaN)
    (hcomments : a.comments.isSome = b.comments.isSome) :
    a.lines = b.lines ↔ a.same b = true := by
  rw [lines_eq_lines_iff, rootLines_eq_iff ha hb hnans hnans',
    commentLines_eq_iff hcomments, same,
    Bool.and_eq_true]

end Tree

end Reparse
