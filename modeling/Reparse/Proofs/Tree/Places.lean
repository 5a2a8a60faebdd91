import Reparse.Proofs.Tree.Texts
import Reparse.Tree.Notation

/-!
# Places are not shown

A node without its places is rendered as the node itself, on one line and on
indented lines.
-/

namespace Reparse

mutual

theorem Node.write_withoutSpans : ∀ n : Node, n.withoutSpans.write = n.write
  | .mk kind children _ => by
      simp only [Node.withoutSpans, Node.write,
        Child.writeList_withoutSpans children]

theorem Child.write_withoutSpans : ∀ c : Child, c.withoutSpans.write = c.write
  | .node n => n.write_withoutSpans
  | .atom _ => rfl

theorem Child.writeList_withoutSpans :
    ∀ cs : List Child, Child.writeList (Child.withoutSpansList cs) =
      Child.writeList cs
  | [] => rfl
  | c :: cs => by
      simp only [Child.withoutSpansList, Child.writeList, c.write_withoutSpans,
        Child.writeList_withoutSpans cs]

end

theorem Node.toString_withoutSpans (n : Node) :
    n.withoutSpans.toString = n.toString :=
  congrArg String.ofList n.write_withoutSpans

theorem Child.nodes_withoutSpansList (cs : List Child) :
    (Child.withoutSpansList cs).filterMap Child.node? =
      (cs.filterMap Child.node?).map Node.withoutSpans := by
  induction cs with
  | nil => rfl
  | cons c cs ih =>
      cases c with
      | node n => exact congrArg (n.withoutSpans :: ·) ih
      | atom a => exact ih

theorem Node.isEmpty_nodes_withoutSpans (n : Node) :
    n.withoutSpans.nodes.isEmpty = n.nodes.isEmpty := by
  cases n with
  | mk kind children span =>
      simp only [Node.withoutSpans, Node.nodes, Node.children,
        Child.nodes_withoutSpansList, List.isEmpty_map]

mutual

theorem Node.linesAt_withoutSpans (depth : Nat) :
    ∀ n : Node, n.withoutSpans.linesAt depth = n.linesAt depth
  | .mk kind children span => by
      have hempty := Node.isEmpty_nodes_withoutSpans (.mk kind children span)
      have hwrite := Node.write_withoutSpans (.mk kind children span)
      rw [Node.withoutSpans] at hempty hwrite ⊢
      rw [Node.linesAt, Node.linesAt, hempty, hwrite,
        Child.linesAtList_withoutSpans (depth + 1)]

theorem Child.linesAt_withoutSpans (depth : Nat) :
    ∀ c : Child, c.withoutSpans.linesAt depth = c.linesAt depth
  | .node n => n.linesAt_withoutSpans depth
  | .atom _ => rfl

theorem Child.linesAtList_withoutSpans (depth : Nat) :
    ∀ cs : List Child, Child.linesAtList depth (Child.withoutSpansList cs) =
      Child.linesAtList depth cs
  | [] => rfl
  | c :: cs => by
      rw [Child.withoutSpansList, Child.linesAtList, Child.linesAtList,
        c.linesAt_withoutSpans depth, Child.linesAtList_withoutSpans depth cs]

end

end Reparse
