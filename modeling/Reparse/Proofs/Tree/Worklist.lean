import Reparse.Proofs.Tree.Texts

/-!
# The walk over a tree, round by round

The texts of a tree are collected by a loop over a stack of nodes.  A round
takes a node off the stack and goes through its children: strings and symbols
are found, nodes are put on the stack.  The nodes below a stack are met in
neither of the two usual orders, so the texts are compared by how often each
stands in the tree.

Every node is taken off once.  The loop ends after as many rounds as the tree
has nodes.
-/

namespace Reparse

/-! ## How often a text stands in a tree -/

mutual

/-- How often a text is a string or a symbol of the node or of a node below
it. -/
def Node.occurrences (text : String) : Node → Nat
  | .mk _ children _ => Child.occurrencesList text children

def Child.occurrences (text : String) : Child → Nat
  | .node n => n.occurrences text
  | .atom (.str other) => if other = text then 1 else 0
  | .atom (.sym other) => if other = text then 1 else 0
  | .atom _ => 0

def Child.occurrencesList (text : String) : List Child → Nat
  | [] => 0
  | c :: cs => c.occurrences text + Child.occurrencesList text cs

end

/-- How often a text stands in a tree at any depth or is the text of a
comment. -/
def Tree.occurrences (text : String) (tree : Tree) : Nat :=
  (tree.root.map (Node.occurrences text)).getD 0 +
    (tree.comments.getD []).countP (·.text = text)

mutual

theorem Node.count_textsWithin (text : String) : ∀ n : Node,
    n.textsWithin.count text = n.occurrences text
  | .mk _ children _ => Child.count_textsWithinList text children

theorem Child.count_textsWithin (text : String) : ∀ c : Child,
    c.textsWithin.count text = c.occurrences text
  | .node n => n.count_textsWithin text
  | .atom a => by
      cases a <;>
        simp [Child.textsWithin, Child.occurrences, Atom.text?,
          List.count_singleton]

theorem Child.count_textsWithinList (text : String) : ∀ cs : List Child,
    (Child.textsWithinList cs).count text = Child.occurrencesList text cs
  | [] => rfl
  | c :: cs => by
      rw [Child.textsWithinList, Child.occurrencesList, List.count_append,
        c.count_textsWithin text, Child.count_textsWithinList text cs]

end

theorem Tree.count_textsWithin (text : String) (tree : Tree) :
    tree.textsWithin.count text = tree.occurrences text := by
  have hcomments : ((tree.comments.getD []).map (·.text)).count text =
      (tree.comments.getD []).countP (·.text = text) := by
    rw [List.count, List.countP_map]
    rfl
  rw [Tree.textsWithin, Tree.occurrences, List.count_append, hcomments]
  cases tree.root with
  | none => rfl
  | some root =>
      simp only [Option.toList_some, List.flatMap_cons, List.flatMap_nil,
        List.append_nil, Option.map_some, Option.getD_some,
        root.count_textsWithin text]

/-! ## Rounds -/

/-- The nodes still to be visited, the next one first, and the texts found so
far. -/
structure Walk where
  stack : List Node
  found : List String

namespace Walk

def start (tree : Tree) : Walk :=
  ⟨tree.root.toList, []⟩

/-- A child is looked at: a node is put on the stack, a string or a symbol is
found. -/
def look (walk : Walk) : Child → Walk
  | .node n => { walk with stack := n :: walk.stack }
  | .atom (.str text) => { walk with found := walk.found ++ [text] }
  | .atom (.sym text) => { walk with found := walk.found ++ [text] }
  | .atom _ => walk

/-- The node on top of the stack is visited; there is no round without one. -/
def round : Walk → Option Walk
  | ⟨[], _⟩ => none
  | ⟨node :: stack, found⟩ => some (node.children.foldl look ⟨stack, found⟩)

/-- What a number of rounds leads to, if there are as many. -/
def after : Nat → Walk → Option Walk
  | 0, walk => some walk
  | n + 1, walk => walk.round.bind (after n)

variable {walk : Walk} {children : List Child} {node : Node}
variable {stack : List Node}
variable {found : List String}

theorem foldl_look : children.foldl look walk =
    ⟨(children.filterMap Child.node?).reverse ++ walk.stack,
      walk.found ++ children.filterMap Child.text?⟩ := by
  induction children generalizing walk with
  | nil => simp
  | cons c cs ih =>
      rw [List.foldl_cons, ih]
      cases c with
      | node n => simp [look, List.filterMap_cons, Child.node?, Child.text?]
      | atom a =>
          cases a <;>
            simp [look, List.filterMap_cons, Child.node?, Child.text?,
              Atom.text?]

theorem round_cons : round ⟨node :: stack, found⟩ =
    some ⟨node.nodes.reverse ++ stack, found ++ node.ownTexts⟩ :=
  congrArg some foldl_look

/-- A round takes one node off the forest below the stack. -/
theorem forestSize_round : Node.forestSize (node :: stack) =
    Node.forestSize (node.nodes.reverse ++ stack) + 1 := by
  rw [Node.forestSize, node.size_eq, Node.forestSize_append,
    Node.forestSize_reverse]
  omega

/-- The rounds over a stack find what the texts below it are gathered to. -/
theorem after_forestSize (stack : List Node) (found : List String) :
    after (Node.forestSize stack) ⟨stack, found⟩ =
      some ⟨[], found ++ gatherTexts stack⟩ := by
  induction stack using gatherTexts.induct generalizing found with
  | case1 => simp [Node.forestSize, after, gatherTexts]
  | case2 node stack ih =>
      rw [forestSize_round, after, round_cons, Option.bind_some, ih,
        gatherTexts, List.append_assoc]

end Walk

/-- The texts of a tree are its strings, symbols and comments, each as often as
it stands there.  They are found by a loop that ends: after one round for each
node the stack is empty. -/
theorem Tree.texts_exact (tree : Tree) :
    (∀ text, tree.texts.count text = tree.occurrences text) ∧
      ∃ found, (Walk.start tree).after (Node.forestSize tree.root.toList) =
        some ⟨[], found⟩ ∧
        Walk.round ⟨[], found⟩ = none ∧
        tree.texts = found ++ (tree.comments.getD []).map (·.text) := by
  constructor
  · intro text
    rw [tree.texts_perm.count_eq, tree.count_textsWithin]
  · refine ⟨gatherTexts tree.root.toList, ?_, rfl, rfl⟩
    exact Walk.after_forestSize tree.root.toList []

end Reparse
