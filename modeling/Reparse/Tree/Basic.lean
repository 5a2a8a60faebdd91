import Reparse.Binary64.Basic

/-!
# Syntax trees

A node has a kind and a list of children; a child is a node or an atom, the
value of a leaf.  A tree is a program: a root, which an empty program lacks,
and the program's comments when its parser keeps them.

Nodes and comments may carry the place they were read from.  `Node.same` and
`Tree.same` compare what was read and not where: places are ignored, and
comments are compared only when both trees carry them.
-/

namespace Reparse

/-- A range of characters, its end excluded, with the number of the line it
begins on. -/
structure Span where
  start : Nat
  stop : Nat
  line : Nat
  deriving DecidableEq

/-- The value of a leaf.  A string literal whose bytes are no text is held as
bytes. -/
inductive Atom where
  | nil
  | bool (value : Bool)
  | int (value : Int64)
  | float (value : Binary64)
  | str (text : String)
  | bytes (bytes : List UInt8)
  | sym (name : String)
  deriving DecidableEq

mutual

inductive Node where
  | mk (kind : String) (children : List Child) (span : Option Span)

inductive Child where
  | node (node : Node)
  | atom (atom : Atom)

end

/-- A comment without the mark that opens it. -/
structure Comment where
  text : String
  span : Option Span
  deriving DecidableEq

structure Tree where
  root : Option Node
  comments : Option (List Comment)

namespace Node

def kind : Node → String
  | mk kind _ _ => kind

def children : Node → List Child
  | mk _ children _ => children

def span : Node → Option Span
  | mk _ _ span => span

/-- A node without a place. -/
def bare (kind : String) (children : List Child) : Node :=
  mk kind children none

end Node

def Child.node? : Child → Option Node
  | .node n => some n
  | .atom _ => none

def Node.nodes (node : Node) : List Node :=
  node.children.filterMap Child.node?

/-! ## Places removed -/

mutual

/-- The node without its own place and those of the nodes below it. -/
def Node.withoutSpans : Node → Node
  | .mk kind children _ => .mk kind (Child.withoutSpansList children) none

def Child.withoutSpans : Child → Child
  | .node n => .node n.withoutSpans
  | .atom a => .atom a

def Child.withoutSpansList : List Child → List Child
  | [] => []
  | c :: cs => c.withoutSpans :: Child.withoutSpansList cs

end

/-! ## Comparison -/

mutual

/-- Equality up to places. -/
def Node.same : Node → Node → Bool
  | .mk kind children _, .mk kind' children' _ =>
    kind == kind' && Child.sameList children children'

def Child.same : Child → Child → Bool
  | .node n, .node m => n.same m
  | .atom a, .atom b => a == b
  | _, _ => false

def Child.sameList : List Child → List Child → Bool
  | [], [] => true
  | c :: cs, d :: ds => c.same d && Child.sameList cs ds
  | _, _ => false

end

mutual

theorem Node.same_eq_true_iff :
    (n m : Node) → (n.same m = true ↔ n.withoutSpans = m.withoutSpans)
  | .mk kind children span, .mk kind' children' span' => by
    simp [Node.same, Node.withoutSpans,
      Child.sameList_eq_true_iff children children']

theorem Child.same_eq_true_iff :
    (c d : Child) → (c.same d = true ↔ c.withoutSpans = d.withoutSpans)
  | .node n, .node m =>
      by simp [Child.same, Child.withoutSpans, Node.same_eq_true_iff n m]
  | .atom _, .atom _ => by simp [Child.same, Child.withoutSpans]
  | .node _, .atom _ => by simp [Child.same, Child.withoutSpans]
  | .atom _, .node _ => by simp [Child.same, Child.withoutSpans]

theorem Child.sameList_eq_true_iff :
    (cs ds : List Child) →
      (Child.sameList cs ds = true ↔
        Child.withoutSpansList cs = Child.withoutSpansList ds)
  | [], [] => by simp [Child.sameList, Child.withoutSpansList]
  | [], _ :: _ => by simp [Child.sameList, Child.withoutSpansList]
  | _ :: _, [] => by simp [Child.sameList, Child.withoutSpansList]
  | c :: cs, d :: ds => by
    simp [Child.sameList, Child.withoutSpansList, Child.same_eq_true_iff c d,
      Child.sameList_eq_true_iff cs ds]

end

/-- Equality of roots up to places. -/
def Tree.sameRoot (a b : Tree) : Bool :=
  match a.root, b.root with
  | none, none => true
  | some n, some m => n.same m
  | _, _ => false

/-- Equality of comment texts, when both trees carry comments. -/
def Tree.sameComments (a b : Tree) : Bool :=
  match a.comments, b.comments with
  | some cs, some ds => cs.map (·.text) == ds.map (·.text)
  | _, _ => true

def Tree.same (a b : Tree) : Bool :=
  a.sameRoot b && a.sameComments b

/-! ## Measures and views -/

mutual

def Node.size : Node → Nat
  | .mk _ children _ => Child.sizeList children + 1

def Child.size : Child → Nat
  | .node n => n.size
  | .atom _ => 0

def Child.sizeList : List Child → Nat
  | [] => 0
  | c :: cs => c.size + Child.sizeList cs

end

mutual

/-- The number of nodes on the longest way down. -/
def Node.height : Node → Nat
  | .mk _ children _ => Child.heightList children + 1

def Child.height : Child → Nat
  | .node n => n.height
  | .atom _ => 0

def Child.heightList : List Child → Nat
  | [] => 0
  | c :: cs => max c.height (Child.heightList cs)

end

mutual

/-- The places of a node and of the nodes below it, each node before its
children. -/
def Node.spans : Node → List (Option Span)
  | .mk _ children span => span :: Child.spansList children

def Child.spans : Child → List (Option Span)
  | .node n => n.spans
  | .atom _ => []

def Child.spansList : List Child → List (Option Span)
  | [] => []
  | c :: cs => c.spans ++ Child.spansList cs

end

def Node.forestSize : List Node → Nat
  | [] => 0
  | n :: ns => n.size + Node.forestSize ns

theorem Node.forestSize_append (ns ms : List Node) :
    Node.forestSize (ns ++ ms) = Node.forestSize ns + Node.forestSize ms := by
  induction ns with
  | nil => exact (Nat.zero_add _).symm
  | cons n ns ih =>
      simp only [List.cons_append, Node.forestSize, ih, Nat.add_assoc]

theorem Node.forestSize_reverse (ns : List Node) :
    Node.forestSize ns.reverse = Node.forestSize ns := by
  induction ns with
  | nil => rfl
  | cons n ns ih =>
    simp only [List.reverse_cons, Node.forestSize_append, Node.forestSize, ih]
    omega

theorem Child.sizeList_eq_forestSize (cs : List Child) :
    Child.sizeList cs = Node.forestSize (cs.filterMap Child.node?) := by
  induction cs with
  | nil => rfl
  | cons c cs ih =>
    cases c <;>
      simp only [Child.sizeList, Child.size, Child.node?, List.filterMap_cons,
        Node.forestSize, ih, Nat.zero_add]

theorem Node.size_eq (n : Node) : n.size = Node.forestSize n.nodes + 1 := by
  cases n with
  | mk kind children span =>
    simp only [Node.size, Node.nodes, Node.children,
      Child.sizeList_eq_forestSize]

def Atom.text? : Atom → Option String
  | .str text => some text
  | .sym name => some name
  | _ => none

def Child.text? : Child → Option String
  | .atom a => a.text?
  | .node _ => none

/-- The strings and symbols among a node's own children. -/
def Node.ownTexts (node : Node) : List String :=
  node.children.filterMap Child.text?

/-- The strings and symbols below a stack of nodes.  The node on top is taken
off, and its child nodes are put on in order, so the last of them comes
next. -/
def gatherTexts : List Node → List String
  | [] => []
  | node :: stack => node.ownTexts ++ gatherTexts (node.nodes.reverse ++ stack)
termination_by stack => Node.forestSize stack
decreasing_by
  have h := Node.size_eq node
  simp only [Node.forestSize_append, Node.forestSize_reverse, Node.forestSize]
  omega

/-- Every string, symbol and comment of a tree. -/
def Tree.texts (tree : Tree) : List String :=
  gatherTexts tree.root.toList ++ (tree.comments.getD []).map (·.text)

end Reparse
