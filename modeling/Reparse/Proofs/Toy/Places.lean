import Reparse.Proofs.Tree.Places
import Reparse.Toy.Printer

/-!
# Places are not printed

A node is taken for the same expression with its places and without them, but
for the foreign nodes that the expression holds, and these are reported by
their text, which shows no places either.
-/

namespace Reparse

theorem Child.withoutSpans_eq_atom_iff {c : Child} {a : Atom} :
    c.withoutSpans = .atom a ↔ c = .atom a := by
  cases c <;> simp [Child.withoutSpans]

theorem Child.withoutSpans_eq_node_iff {c : Child} {n : Node} :
    c.withoutSpans = .node n ↔ ∃ m, c = .node m ∧ m.withoutSpans = n := by
  cases c <;> simp [Child.withoutSpans]

theorem Child.withoutSpansList_eq_nil_iff {cs : List Child} :
    Child.withoutSpansList cs = [] ↔ cs = [] := by
  cases cs <;> simp [Child.withoutSpansList]

theorem Child.withoutSpansList_eq_cons_iff {cs ds : List Child} {d : Child} :
    Child.withoutSpansList cs = d :: ds ↔
      ∃ c rest, cs = c :: rest ∧ c.withoutSpans = d ∧
        Child.withoutSpansList rest = ds := by
  cases cs <;> simp [Child.withoutSpansList]

theorem Node.withoutSpans_eq_mk_iff {n : Node} {kind : String}
    {children : List Child} {span : Option Span} :
    n.withoutSpans = .mk kind children span ↔
      ∃ cs place, n = .mk kind cs place ∧
        Child.withoutSpansList cs = children ∧ span = none := by
  cases n
  simp only [Node.withoutSpans, Node.mk.injEq]
  constructor
  · rintro ⟨rfl, rfl, rfl⟩
    exact ⟨_, _, ⟨rfl, rfl, rfl⟩, rfl, rfl⟩
  · rintro ⟨_, _, ⟨rfl, rfl, rfl⟩, rfl, rfl⟩
    exact ⟨rfl, rfl, rfl⟩

namespace Toy
namespace Expr

mutual

/-- The expression with its foreign nodes without places. -/
def withoutSpans : Expr → Expr
  | assign name value => assign name value.withoutSpans
  | sequence items => sequence (withoutSpansList items)
  | negate operand => negate operand.withoutSpans
  | infixed left op right => infixed left.withoutSpans op right.withoutSpans
  | call name args => call name (withoutSpansList args)
  | foreign node => foreign node.withoutSpans
  | e => e

def withoutSpansList : List Expr → List Expr
  | [] => []
  | e :: es => e.withoutSpans :: withoutSpansList es

end

theorem ofNode_withoutSpans (node : Node) :
    ofNode node.withoutSpans = (ofNode node).withoutSpans := by
  apply ofNode.induct
    (fun node => ofNode node.withoutSpans = (ofNode node).withoutSpans)
    (fun node children =>
      ofChildren node.withoutSpans (Child.withoutSpansList children) =
      withoutSpansList (ofChildren node children))
  -- A node of no other shape, which it does not take on without its places.
  case case21 =>
      intro node
      intros
      have hforeign : ofNode node = .foreign node := by
        rw [ofNode]
        all_goals assumption
      have hforeign' :
          ofNode node.withoutSpans = .foreign node.withoutSpans := by
        rw [ofNode]
        all_goals
          intros
          next hshape =>
            obtain ⟨children, span, rfl, hchildren, -⟩ :=
              Node.withoutSpans_eq_mk_iff.mp hshape
            clear hshape hforeign
            try simp only [Child.withoutSpansList_eq_cons_iff,
              Child.withoutSpansList_eq_nil_iff,
              Child.withoutSpans_eq_atom_iff,
              Child.withoutSpans_eq_node_iff] at hchildren
            simp only [Node.mk.injEq, String.reduceEq, true_and,
              false_and] at *
            grind
      rw [hforeign, hforeign', withoutSpans]
  all_goals
    intros
    simp_all [ofNode, ofChildren, withoutSpans, withoutSpansList,
      Node.withoutSpans, Child.withoutSpans, Child.withoutSpansList]

mutual

/-- What is written, and what is reported, shows no places. -/
theorem write_withoutSpans : ∀ (e : Expr) (locals : List String),
    e.withoutSpans.write locals = e.write locals
  | assign name value, locals => by
      rw [withoutSpans, write, write, write_withoutSpans value]
  | sequence items, locals => by
      rw [withoutSpans, write, write, writeList_withoutSpans items]
  | negate operand, locals => by
      have hnumeral : operand.withoutSpans.isNumeral = operand.isNumeral := by
        cases operand <;> rfl
      rw [withoutSpans, write, write, write_withoutSpans operand, hnumeral]
  | infixed left op right, locals => by
      simp only [withoutSpans, write, write_withoutSpans left,
        write_withoutSpans right]
  | call name args, locals => by
      rw [withoutSpans, write, write, writeList_withoutSpans args]
  | foreign node, _ => by
      rw [withoutSpans, write, write, Node.toString_withoutSpans]
  | int _, _ | float _, _ | str _, _ | bytes _, _ | sym _, _ | nil, _
  | bool _, _ | var _, _ => rfl

theorem writeList_withoutSpans : ∀ (es : List Expr) (locals : List String),
    writeList locals (withoutSpansList es) = writeList locals es
  | [], _ => rfl
  | e :: es, locals => by
      simp only [withoutSpansList, writeList, write_withoutSpans e,
        writeList_withoutSpans es]

end

end Expr

theorem programOf_withoutSpans (root : Option Node) :
    programOf (root.map Node.withoutSpans) =
      Expr.withoutSpansList (programOf root) := by
  cases root with
  | none => rfl
  | some root =>
      simp only [Option.map_some, programOf, Expr.ofNode_withoutSpans]
      match Expr.ofNode root with
      | .sequence (_ :: _ :: _) => rfl
      | .sequence [_] | .sequence [] => rfl
      | .int _ | .float _ | .str _ | .bytes _ | .sym _ | .nil | .bool _
      | .var _ | .assign _ _
      | .negate _ | .infixed _ _ _ | .call _ _ | .foreign _ => rfl

/-- A tree is printed without its places as it is with them. -/
theorem print_withoutSpans (tree : Tree) :
    print { tree with root := tree.root.map Node.withoutSpans } =
      print tree := by
  simp only [print, programLines, programOf_withoutSpans,
    Expr.writeList_withoutSpans]

end Toy
end Reparse
