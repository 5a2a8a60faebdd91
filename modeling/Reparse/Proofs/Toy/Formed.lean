import Reparse.Proofs.Toy.Scope

/-!
# Expressions made of names

Whatever a node looks like, the expression it is taken for assigns to names and
calls names.  Among these expressions the writable ones are those whose texts
are words of the language, apart from literals that have no spelling: every
integer has an opposite, and the only foreign parts are symbols that are named
like reserved words.  What the parser reads is writable.
-/

namespace Reparse.Toy
namespace Expr

mutual

/-- Names are assigned to and called, and the parts that have no parts satisfy
a predicate. -/
def Formed (leaf : Expr → Prop) : Expr → Prop
  | assign name value => isName name = true ∧ value.Formed leaf
  | sequence items => FormedList leaf items
  | negate operand => operand.Formed leaf
  | infixed left _ right => left.Formed leaf ∧ right.Formed leaf
  | call name args => isName name = true ∧ FormedList leaf args
  | e => leaf e

def FormedList (leaf : Expr → Prop) : List Expr → Prop
  | [] => True
  | e :: es => e.Formed leaf ∧ FormedList leaf es

end

def NamedLeaf : Expr → Prop
  | sym name => isSymbol name = true
  | var name => isName name = true
  | _ => True

def WritableLeaf : Expr → Prop
  | int value => value ≠ Int64.minValue
  | foreign node =>
      ∃ name ∈ reservedWords, ∃ span, node = .mk "sym" [.atom (.sym name)] span
  | e => e.NamedLeaf

abbrev Named : Expr → Prop := Formed NamedLeaf

abbrev NamedList : List Expr → Prop := FormedList NamedLeaf

abbrev Writable : Expr → Prop := Formed WritableLeaf

abbrev WritableList : List Expr → Prop := FormedList WritableLeaf

mutual

theorem writable_of_scoped :
    ∀ {e : Expr} {locals : List String}, e.Scoped locals → e.Writable
  | int _, _, hscoped | sym _, _, hscoped | foreign _, _, hscoped => hscoped
  | float _, _, _ | str _, _, _ | bytes _, _, _ | nil, _, _ | bool _, _, _ =>
      trivial
  | var _, _, hscoped => hscoped.1
  | assign _ value, _, hscoped =>
      ⟨hscoped.1, writable_of_scoped (e := value) hscoped.2⟩
  | sequence _, _, hscoped => writableList_of_scoped hscoped.2
  | negate operand, _, hscoped => writable_of_scoped (e := operand) hscoped
  | infixed _ _ _, _, hscoped =>
      ⟨writable_of_scoped hscoped.1, writable_of_scoped hscoped.2⟩
  | call _ _, _, hscoped => ⟨hscoped.1, writableList_of_scoped hscoped.2⟩

theorem writableList_of_scoped : ∀ {es : List Expr} {locals : List String},
    ScopedList locals es → WritableList es
  | [], _, _ => trivial
  | _ :: _, _, hscoped =>
      ⟨writable_of_scoped hscoped.1, writableList_of_scoped hscoped.2⟩

end

/-- The expression of any node is made of names: a node that is not, is
foreign. -/
theorem named_ofNode (node : Node) : (ofNode node).Named := by
  apply ofNode.induct (fun node => (ofNode node).Named)
    (fun node children => NamedList (ofChildren node children))
  -- A node of no other shape.
  case case21 =>
      intro node
      intros
      rw [ofNode]
      · trivial
      all_goals assumption
  all_goals
    intros
    simp_all [ofNode, ofChildren, Formed, FormedList, NamedLeaf]

theorem symbol_of_ofSymbol? {text : String} {op : Operator}
    (hop : Operator.ofSymbol? text = some op) : op.symbol = text := by
  unfold Operator.ofSymbol? at hop
  split at hop <;> cases hop <;> rfl

/-- Nothing of a node is lost in a writable expression, apart from places. -/
theorem toNode_ofNode {node : Node} : (ofNode node).Writable →
    (ofNode node).toNode = node.withoutSpans := by
  apply ofNode.induct
    (fun node => (ofNode node).Writable →
      (ofNode node).toNode = node.withoutSpans)
    (fun node children => node.kind ≠ "sym" →
      WritableList (ofChildren node children) →
      toNodes (ofChildren node children) = Child.withoutSpansList children)
  case case17 =>
      intro left op right span found hop ihLeft ihRight hwritable
      simp only [ofNode, hop] at hwritable ⊢
      simp only [toNode, ihLeft hwritable.1, ihRight hwritable.2,
        symbol_of_ofSymbol? hop]
      rfl
  -- A node of no other shape.
  case case21 =>
      intro node
      intros
      rw [ofNode]
      · rfl
      all_goals assumption
  -- An atom among statements or arguments makes their node foreign, and that
  -- is no symbol.
  case case24 =>
      intro node atom rest ih hkind hwritable
      rw [ofChildren] at hwritable
      obtain ⟨⟨name, -, span, rfl⟩, -⟩ := hwritable
      exact absurd rfl hkind
  all_goals
    intros
    simp_all [ofNode, ofChildren, Formed, FormedList, toNode, toNodes,
      Node.withoutSpans, Child.withoutSpansList, Child.withoutSpans, Node.bare,
      Node.kind]

end Expr
end Reparse.Toy
