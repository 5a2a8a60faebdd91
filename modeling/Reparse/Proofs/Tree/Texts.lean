import Reparse.Tree.Basic
import Mathlib.Tactic

/-!
# The texts of a tree

`Tree.texts` goes through a tree with a stack of nodes and meets its texts in
an order of its own. This module says by recursion on the tree which texts
there are, and shows that the walk yields each of them as often as the tree
holds it.
-/

namespace Reparse

open scoped List

mutual

/-- The strings and symbols of a node and of all nodes below it. -/
def Node.textsWithin : Node → List String
  | .mk _ children _ => Child.textsWithinList children

def Child.textsWithin : Child → List String
  | .node n => n.textsWithin
  | .atom a => a.text?.toList

def Child.textsWithinList : List Child → List String
  | [] => []
  | c :: cs => c.textsWithin ++ Child.textsWithinList cs

end

/-- The strings and symbols of a tree at every depth, then its comments. -/
def Tree.textsWithin (tree : Tree) : List String :=
  tree.root.toList.flatMap Node.textsWithin ++
    (tree.comments.getD []).map (·.text)

mutual

/-- The atoms of a node and of all nodes below it, from left to right. -/
def Node.atoms : Node → List Atom
  | .mk _ children _ => Child.atomsList children

def Child.atoms : Child → List Atom
  | .node n => n.atoms
  | .atom a => [a]

def Child.atomsList : List Child → List Atom
  | [] => []
  | c :: cs => c.atoms ++ Child.atomsList cs

end

def Tree.atoms (tree : Tree) : List Atom :=
  tree.root.toList.flatMap Node.atoms

mutual

theorem Node.textsWithin_eq :
    ∀ n : Node, n.textsWithin = n.atoms.filterMap Atom.text?
  | .mk _ children _ => Child.textsWithinList_eq children

theorem Child.textsWithin_eq :
    ∀ c : Child, c.textsWithin = c.atoms.filterMap Atom.text?
  | .node n => n.textsWithin_eq
  | .atom a => by
      rw [Child.textsWithin, Child.atoms, List.filterMap_cons]
      cases a.text? <;> rfl

theorem Child.textsWithinList_eq :
    ∀ cs : List Child, Child.textsWithinList cs =
      (Child.atomsList cs).filterMap Atom.text?
  | [] => rfl
  | c :: cs => by
      rw [Child.textsWithinList, Child.atomsList, List.filterMap_append,
        c.textsWithin_eq,
        Child.textsWithinList_eq cs]

end

theorem Child.textsWithin_subset_of_mem {c : Child} {cs : List Child}
    (hc : c ∈ cs) :
    c.textsWithin ⊆ Child.textsWithinList cs := by
  induction cs with
  | nil => cases hc
  | cons d cs ih =>
      rw [Child.textsWithinList]
      rcases List.mem_cons.mp hc with rfl | hc
      · exact List.subset_append_left _ _
      · exact List.Subset.trans (ih hc) (List.subset_append_right _ _)

mutual

theorem Node.atoms_withoutSpans : ∀ n : Node, n.withoutSpans.atoms = n.atoms
  | .mk _ children _ => Child.atomsList_withoutSpans children

theorem Child.atoms_withoutSpans : ∀ c : Child, c.withoutSpans.atoms = c.atoms
  | .node n => n.atoms_withoutSpans
  | .atom _ => rfl

theorem Child.atomsList_withoutSpans :
    ∀ cs : List Child, Child.atomsList (Child.withoutSpansList cs) =
      Child.atomsList cs
  | [] => rfl
  | c :: cs => by
      rw [Child.withoutSpansList, Child.atomsList, Child.atomsList,
        c.atoms_withoutSpans,
        Child.atomsList_withoutSpans cs]

end

theorem Node.textsWithin_withoutSpans (n : Node) :
    n.withoutSpans.textsWithin = n.textsWithin := by
  rw [Node.textsWithin_eq, Node.textsWithin_eq, Node.atoms_withoutSpans]

mutual

theorem Node.withoutSpans_withoutSpans :
    ∀ n : Node, n.withoutSpans.withoutSpans = n.withoutSpans
  | .mk kind children _ => by
      simp only [Node.withoutSpans,
        Child.withoutSpansList_withoutSpans children]

theorem Child.withoutSpans_withoutSpans : ∀ c : Child,
    c.withoutSpans.withoutSpans = c.withoutSpans
  | .node n => by simp only [Child.withoutSpans, n.withoutSpans_withoutSpans]
  | .atom _ => rfl

theorem Child.withoutSpansList_withoutSpans : ∀ cs : List Child,
    Child.withoutSpansList (Child.withoutSpansList cs) =
      Child.withoutSpansList cs
  | [] => rfl
  | c :: cs => by
      simp only [Child.withoutSpansList, c.withoutSpans_withoutSpans,
        Child.withoutSpansList_withoutSpans cs]

end

/-- The texts of a row of children are those among its atoms and those within
its nodes. -/
theorem Child.textsWithinList_perm (cs : List Child) :
    (Child.textsWithinList cs).Perm
      (cs.filterMap Child.text? ++
        (cs.filterMap Child.node?).flatMap Node.textsWithin) := by
  induction cs with
  | nil => exact List.Perm.refl _
  | cons c cs ih =>
      cases c with
      | node n =>
          have hswap : (n.textsWithin ++ Child.textsWithinList cs).Perm
              (n.textsWithin ++ (cs.filterMap Child.text? ++
                (cs.filterMap Child.node?).flatMap Node.textsWithin)) :=
            ih.append_left _
          refine hswap.trans ?_
          simp only [List.filterMap_cons, Child.text?, Child.node?,
            List.flatMap_cons]
          exact List.perm_append_comm_assoc _ _ _
      | atom a =>
          simp only [Child.textsWithinList, Child.textsWithin,
            List.filterMap_cons, Child.text?, Child.node?]
          cases a.text? with
          | none => exact ih
          | some text => exact ih.cons text

theorem Node.textsWithin_perm (node : Node) :
    node.textsWithin.Perm
      (node.ownTexts ++ node.nodes.flatMap Node.textsWithin) := by
  cases node with
  | mk kind children span => exact Child.textsWithinList_perm children

/-- The walk over a stack of nodes yields what lies within them. -/
theorem gatherTexts_perm (stack : List Node) :
    (gatherTexts stack).Perm (stack.flatMap Node.textsWithin) := by
  induction stack using gatherTexts.induct with
  | case1 => simp [gatherTexts]
  | case2 node stack ih =>
      rw [gatherTexts, List.flatMap_cons]
      have hnodes : (node.nodes.reverse.flatMap Node.textsWithin).Perm
          (node.nodes.flatMap Node.textsWithin) :=
        (List.reverse_perm node.nodes).flatMap_right _
      calc
        node.ownTexts ++ gatherTexts (node.nodes.reverse ++ stack) ~
            node.ownTexts ++
              (node.nodes.reverse ++ stack).flatMap Node.textsWithin :=
          ih.append_left _
        _ ~ (node.ownTexts ++ node.nodes.flatMap Node.textsWithin) ++
              stack.flatMap Node.textsWithin := by
          rw [List.flatMap_append, List.append_assoc]
          exact (hnodes.append_right _).append_left _
        _ ~ node.textsWithin ++ stack.flatMap Node.textsWithin :=
          node.textsWithin_perm.symm.append_right _

theorem Tree.texts_perm (tree : Tree) : tree.texts.Perm tree.textsWithin :=
  (gatherTexts_perm tree.root.toList).append_right _

theorem Tree.mem_texts_iff {tree : Tree} {text : String} :
    text ∈ tree.texts ↔ text ∈ tree.textsWithin :=
  tree.texts_perm.mem_iff

/-! ## Atoms replaced -/

mutual

/-- The node with each atom in it replaced. -/
def Node.mapAtoms (f : Atom → Atom) : Node → Node
  | .mk kind children span => .mk kind (Child.mapAtomsList f children) span

def Child.mapAtoms (f : Atom → Atom) : Child → Child
  | .node n => .node (n.mapAtoms f)
  | .atom a => .atom (f a)

def Child.mapAtomsList (f : Atom → Atom) : List Child → List Child
  | [] => []
  | c :: cs => c.mapAtoms f :: Child.mapAtomsList f cs

end

def Tree.mapAtoms (f : Atom → Atom) (tree : Tree) : Tree :=
  { tree with root := tree.root.map (Node.mapAtoms f) }

mutual

theorem Node.atoms_mapAtoms (f : Atom → Atom) :
    ∀ n : Node, (n.mapAtoms f).atoms = n.atoms.map f
  | .mk _ children _ => Child.atomsList_mapAtoms f children

theorem Child.atoms_mapAtoms (f : Atom → Atom) :
    ∀ c : Child, (c.mapAtoms f).atoms = c.atoms.map f
  | .node n => n.atoms_mapAtoms f
  | .atom _ => rfl

theorem Child.atomsList_mapAtoms (f : Atom → Atom) :
    ∀ cs : List Child, Child.atomsList (Child.mapAtomsList f cs) =
      (Child.atomsList cs).map f
  | [] => rfl
  | c :: cs => by
      rw [Child.mapAtomsList, Child.atomsList, Child.atomsList,
        List.map_append,
        c.atoms_mapAtoms f, Child.atomsList_mapAtoms f cs]

end

mutual

theorem Node.mapAtoms_eq_self {f : Atom → Atom} :
    ∀ {n : Node}, (∀ a ∈ n.atoms, f a = a) →
    n.mapAtoms f = n
  | .mk kind children span, hf => by
      rw [Node.mapAtoms, Child.mapAtomsList_eq_self hf]

theorem Child.mapAtoms_eq_self {f : Atom → Atom} :
    ∀ {c : Child}, (∀ a ∈ c.atoms, f a = a) →
    c.mapAtoms f = c
  | .node _, hf => by rw [Child.mapAtoms, Node.mapAtoms_eq_self hf]
  | .atom a, hf => by rw [Child.mapAtoms, hf a (List.mem_singleton_self a)]

theorem Child.mapAtomsList_eq_self {f : Atom → Atom} : ∀ {cs : List Child},
    (∀ a ∈ Child.atomsList cs, f a = a) → Child.mapAtomsList f cs = cs
  | [], _ => rfl
  | c :: cs, hf => by
      obtain ⟨hc, hcs⟩ := List.forall_mem_append.mp hf
      rw [Child.mapAtomsList, Child.mapAtoms_eq_self hc,
        Child.mapAtomsList_eq_self hcs]

end

theorem Tree.atoms_mapAtoms (f : Atom → Atom) (tree : Tree) :
    (tree.mapAtoms f).atoms = tree.atoms.map f := by
  unfold Tree.atoms Tree.mapAtoms
  cases tree.root with
  | none => rfl
  | some root => simp [Node.atoms_mapAtoms]

end Reparse
