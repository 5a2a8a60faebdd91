import Reparse.Proofs.Toy.Grammar
import Reparse.Proofs.Toy.Scope

/-!
# The shape of parsed trees

A node that is read from sound tokens is, as an expression, in the scope of the
names assigned before it; the expression assigns what the parser takes to be
assigned, and it is the node again but for the places.  The operators of a
chain are read with what stands to their left, so for what follows an operand
the statement is about the operand as well.
-/

namespace Reparse.Toy

/-- What the lexer guarantees of a token: names are names, and integers have no
sign. -/
def TokenKind.Sound : TokenKind → Prop
  | int value => 0 ≤ value
  | ident name => isName name = true
  | sym name => isSymbol name = true ∨ name ∈ reservedWords
  | _ => True

/-- Where a sound token stands for the number of its line, that number is an
integer of the language. -/
def Token.Sound (t : Token) : Prop :=
  t.kind.Sound ∧ (t.kind = .lineWord → t.start.line < 2 ^ 63)

def AllSound (ts : List Token) : Prop :=
  ∀ t ∈ ts, t.Sound

theorem AllSound.of_subset {ts rest : List Token} (hsound : AllSound ts)
    (hsubset : rest ⊆ ts) :
    AllSound rest :=
  fun t ht => hsound t (hsubset ht)

theorem AllSound.head {t : Token} {ts : List Token}
    (hsound : AllSound (t :: ts)) : t.Sound :=
  hsound t List.mem_cons_self

theorem AllSound.tail {t : Token} {ts : List Token}
    (hsound : AllSound (t :: ts)) : AllSound ts :=
  hsound.of_subset (List.subset_cons_self t ts)

theorem Token.Sound.isName {t : Token} {name : String} (hsound : t.Sound)
    (hname : t.kind = .ident name) : Toy.isName name = true := by
  have hkind := hsound.1
  rw [hname] at hkind
  exact hkind

/-! ## Tokens left -/

theorem skipSeparators_subset (ts : List Token) :
    (skipSeparators ts).val ⊆ ts :=
  (List.dropWhile_suffix isSeparator).subset

theorem Bracket.skip_subset (bracket : Bracket) (ts : List Token) :
    bracket.skip ts ⊆ ts := by
  cases bracket with
  | group => exact skipSeparators_subset ts
  | call => exact List.Subset.refl ts

/-- A form leaves tokens that it was given. -/
theorem Derives.subset {ctx : Context} {form : Form}
    {locals locals' : List String} {ts rest : List Token}
    {result : form.Result} {cost : Nat}
    (hderives : Derives ctx form locals ts result locals' rest cost) :
    rest ⊆ ts := by
  induction hderives with
  | assignment _ _ _ ih =>
      exact List.subset_cons_of_subset _ (List.subset_cons_of_subset _ ih)
  | expression _ _ ih | operandSum _ ih | operandProduct _ ih
  | unsigned _ _ ih => exact ih
  | chain _ _ ihLeft ihTail => exact List.Subset.trans ihTail ihLeft
  | tailEnd _ => exact List.Subset.refl _
  | tailOperator _ _ _ _ ihRight ihTail =>
      exact List.subset_cons_of_subset _ (List.Subset.trans ihTail ihRight)
  | negativeLiteral _ _ =>
      exact List.subset_cons_of_subset _ (List.subset_cons_self _ _)
  | negation _ _ _ ih => exact List.subset_cons_of_subset _ ih
  | literal _ | name _ _ | itemsEnd _ => exact List.subset_cons_self _ _
  | call _ _ _ ih =>
      exact List.subset_cons_of_subset _ (List.subset_cons_of_subset _ ih)
  | group _ _ ih =>
      exact List.subset_cons_of_subset
        _ (List.Subset.trans ih (skipSeparators_subset _))
  | itemsLast _ _ _ ih =>
      exact List.Subset.trans (List.subset_cons_self _ _) ih
  | itemsMore _ _ _ _ ihItem ihItems =>
      refine List.Subset.trans ihItems
        (List.Subset.trans (Bracket.skip_subset _ _) ?_)
      exact List.Subset.trans (List.subset_cons_self _ _) ihItem

/-! ## Nodes as expressions -/

open Reparse.Toy.Expr

/-- A node that stands for an expression in scope, which assigns the names that
are new in `locals'`. -/
structure Faithful (locals : List String) (node : Node)
    (locals' : List String) : Prop where
  inScope : (ofNode node).Scoped locals
  assigned : (ofNode node).assigned ++ locals = locals'
  toNode : (ofNode node).toNode = node.withoutSpans

structure FaithfulList (locals : List String) (nodes : List Node)
    (locals' : List String) : Prop where
  inScope : ScopedList locals (nodes.map ofNode)
  assigned : assignedList (nodes.map ofNode) ++ locals = locals'
  toNodes :
    toNodes (nodes.map ofNode) = Child.withoutSpansList (nodes.map .node)

theorem ofChildren_nodes (node : Node) (nodes : List Node) :
    ofChildren node (nodes.map .node) = nodes.map ofNode := by
  induction nodes with
  | nil => simp [ofChildren]
  | cons child nodes ih => simp [ofChildren, ih]

section Shapes

variable {locals locals' locals'' : List String} {node left right : Node}
variable {nodes : List Node}
variable {name : String} {span : Option Span}

theorem ofNode_assign (hname : isName name = true) :
    ofNode (.mk "lvasgn" [symbol name, .node node] span) =
      .assign name (ofNode node) := by
  simp [ofNode, symbol, hname]

theorem ofNode_negate :
    ofNode (.mk "send" [.node node, symbol negationSymbol] span) =
      .negate (ofNode node) := by
  simp [ofNode, symbol]

theorem ofNode_binary (op : Operator) :
    ofNode (binary left op right) =
      .infixed (ofNode left) op (ofNode right) := by
  simp [ofNode, binary, symbol, Operator.ofSymbol?_symbol]

theorem ofNode_call (hname : isName name = true) :
    ofNode (.mk "send" (.atom .nil :: symbol name :: nodes.map .node) span) =
      .call name (nodes.map ofNode) := by
  simp [ofNode, symbol, hname, ofChildren_nodes]

theorem ofNode_begin :
    ofNode (.mk "begin" (nodes.map .node) span) =
      .sequence (nodes.map ofNode) := by
  simp [ofNode, ofChildren_nodes]

/-! ## Faithful nodes, shape by shape -/

theorem Faithful.assign (hname : isName name = true)
    (hnode : Faithful (name :: locals) node locals') :
    Faithful locals (.mk "lvasgn" [symbol name, .node node] span) locals' := by
  constructor <;> rw [ofNode_assign hname]
  · exact ⟨hname, hnode.inScope⟩
  · rw [Expr.assigned, List.append_assoc]
    exact hnode.assigned
  · rw [Expr.toNode, hnode.toNode]
    rfl

theorem Faithful.negate (hnode : Faithful locals node locals') :
    Faithful locals (.mk "send" [.node node, symbol negationSymbol] span)
      locals' := by
  constructor <;> rw [ofNode_negate]
  · exact hnode.inScope
  · exact hnode.assigned
  · rw [Expr.toNode, hnode.toNode]
    rfl

theorem Faithful.binary {op : Operator} (hleft : Faithful locals left locals')
    (hright : Faithful locals' right locals'') :
    Faithful locals (binary left op right) locals'' := by
  have hright' := hright
  rw [← hleft.assigned] at hright'
  constructor <;> rw [ofNode_binary]
  · exact ⟨hleft.inScope, hright'.inScope⟩
  · rw [Expr.assigned, List.append_assoc]
    exact hright'.assigned
  · rw [Expr.toNode, hleft.toNode, hright.toNode]
    rfl

theorem FaithfulList.nil : FaithfulList locals [] locals :=
  ⟨trivial, rfl, rfl⟩

theorem FaithfulList.cons (hnode : Faithful locals node locals')
    (hnodes : FaithfulList locals' nodes locals'') :
    FaithfulList locals (node :: nodes) locals'' := by
  have hnodes' := hnodes
  rw [← hnode.assigned] at hnodes'
  constructor
  · exact ⟨hnode.inScope, hnodes'.inScope⟩
  · rw [List.map_cons, Expr.assignedList, List.append_assoc]
    exact hnodes'.assigned
  · rw [List.map_cons, Expr.toNodes, hnode.toNode, hnodes.toNodes]
    rfl

theorem Faithful.call (hname : isName name = true)
    (hnodes : FaithfulList locals nodes locals') :
    Faithful locals (.mk "send" (.atom .nil :: symbol name :: nodes.map .node)
      span) locals' := by
  constructor <;> rw [ofNode_call hname]
  · exact ⟨hname, hnodes.inScope⟩
  · exact hnodes.assigned
  · rw [Expr.toNode, hnodes.toNodes]
    rfl

theorem Faithful.sequence (hnodes : FaithfulList locals nodes locals')
    (hlength : nodes.length ≠ 1) :
    Faithful locals (.mk "begin" (nodes.map .node) span) locals' := by
  constructor <;> rw [ofNode_begin]
  · exact ⟨by rwa [List.length_map], hnodes.inScope⟩
  · exact hnodes.assigned
  · rw [Expr.toNode, hnodes.toNodes]
    rfl

theorem FaithfulList.single (hnodes : FaithfulList locals [node] locals') :
    Faithful locals node locals' := by
  obtain ⟨hscoped, hassigned, htoNodes⟩ := hnodes
  refine ⟨hscoped.1, hassigned, ?_⟩
  simpa [Expr.toNodes, Child.withoutSpansList,
    Child.withoutSpans] using htoNodes

/-- The statements of a group are one node. -/
theorem FaithfulList.collapse (hnodes : FaithfulList locals nodes locals') :
    Faithful locals ((collapse? nodes).getD (.mk "begin" [] span))
      locals' := by
  match nodes, hnodes with
  | [], hnodes => exact .sequence hnodes (by simp)
  | [node], hnodes => exact hnodes.single
  | _ :: _ :: _, hnodes => exact .sequence hnodes (by simp)

/-- A node that assigns nothing. -/
theorem Faithful.leaf {e : Expr} (hnode : ofNode node = e)
    (hscoped : e.Scoped locals) (hassigned : e.assigned = [])
    (htoNode : e.toNode = node.withoutSpans) :
    Faithful locals node locals := by
  subst hnode
  refine ⟨hscoped, ?_, htoNode⟩
  rw [hassigned, List.nil_append]

theorem Faithful.nameNode (hname : isName name = true) {span : Span} :
    Faithful locals (Toy.nameNode locals name span) locals := by
  unfold Toy.nameNode
  by_cases hlocal : name ∈ locals
  · rw [if_pos hlocal]
    have hnode :
        ofNode (.mk "lvar" [symbol name] (some span)) = .var name := by
      simp [ofNode, symbol, hname]
    exact .leaf hnode ⟨hname, hlocal⟩ rfl rfl
  · rw [if_neg hlocal]
    exact .call hname FaithfulList.nil

/-! ## Literals -/

theorem ne_minValue_of_nonneg {value : Int64} (hvalue : 0 ≤ value) :
    value ≠ Int64.minValue ∧ -value ≠ Int64.minValue := by
  constructor
  · rintro rfl
    exact absurd hvalue (by decide)
  · intro hneg
    have hsame : value = Int64.minValue := by
      rw [← @Int64.neg_neg value, hneg]
      rfl
    rw [hsame] at hvalue
    exact absurd hvalue (by decide)

theorem ofNat_ne_minValue {n : Nat} (hn : n < 2 ^ 63) :
    Int64.ofNat n ≠ Int64.minValue := by
  intro heq
  have hvalue := congrArg Int64.toInt heq
  rw [Int64.toInt_ofNat_of_lt hn] at hvalue
  have hmin : Int64.minValue.toInt < 0 := by decide
  omega

theorem Faithful.int {value : Int64} (hvalue : value ≠ Int64.minValue) :
    Faithful locals (.mk "int" [.atom (.int value)] span) locals := by
  have hnode : ofNode (.mk "int" [.atom (.int value)] span) = .int value := by
    simp [ofNode]
  exact .leaf hnode hvalue rfl rfl

/-- A symbol that is named like a reserved word stands for no expression of its
own. -/
theorem Faithful.sym (hsymbol : isSymbol name = true ∨ name ∈ reservedWords) :
    Faithful locals (.mk "sym" [symbol name] span) locals := by
  rcases hsymbol with hsymbol | hreserved
  · have hnode : ofNode (.mk "sym" [symbol name] span) = .sym name := by
      simp [ofNode, symbol, hsymbol]
    exact .leaf hnode hsymbol rfl rfl
  · have hnode :
        ofNode (.mk "sym" [symbol name] span) =
          .foreign (.mk "sym" [symbol name] span) := by
      simp [ofNode, symbol, isSymbol_of_mem_reservedWords hreserved]
    exact .leaf hnode ⟨name, hreserved, span, rfl⟩ rfl rfl

theorem Faithful.literal {ctx : Context} {t : Token} (hsound : t.Sound)
    (hnode : literal? ctx t = some node) : Faithful locals node locals := by
  obtain ⟨hkind, hline⟩ := hsound
  unfold literal? at hnode
  cases hshape : t.kind with
  | int value =>
      rw [hshape] at hnode hkind
      cases hnode
      exact .int (ne_minValue_of_nonneg hkind).1
  | float value =>
      rw [hshape] at hnode
      cases hnode
      exact .leaf (e := .float value) (by simp [ofNode]) trivial rfl rfl
  | str text =>
      rw [hshape] at hnode
      cases hnode
      exact .leaf (e := .str text) (by simp [ofNode]) trivial rfl rfl
  | bytes data =>
      rw [hshape] at hnode
      cases hnode
      exact .leaf (e := .bytes data) (by simp [ofNode]) trivial rfl rfl
  | sym name =>
      rw [hshape] at hnode hkind
      cases hnode
      exact .sym hkind
  | nil =>
      rw [hshape] at hnode
      cases hnode
      exact .leaf (e := .nil) (by simp [ofNode]) trivial rfl rfl
  | bool value =>
      rw [hshape] at hnode
      cases value with
      | true =>
          cases hnode
          exact .leaf (e := .bool true) (by simp [ofNode]) trivial rfl rfl
      | false =>
          cases hnode
          exact .leaf (e := .bool false) (by simp [ofNode]) trivial rfl rfl
  | lineWord =>
      rw [hshape] at hnode
      cases hnode
      exact .int (ofNat_ne_minValue (hline hshape))
  | fileWord =>
      rw [hshape] at hnode
      cases hnode
      exact .leaf (e := .str ctx.identification) (by simp [ofNode])
        trivial rfl rfl
  | _ =>
      rw [hshape] at hnode
      cases hnode

theorem Faithful.negated {minus t : Token} (hsound : t.Sound)
    (hnode : negated? minus t = some node) : Faithful locals node locals := by
  obtain ⟨hkind, -⟩ := hsound
  unfold negated? at hnode
  split at hnode
  · next value heq =>
      cases hnode
      rw [heq] at hkind
      exact .int (ne_minValue_of_nonneg hkind).2
  · next value heq =>
      cases hnode
      exact .leaf (e := .float value.neg) (by simp [ofNode]) trivial rfl rfl
  · cases hnode

end Shapes

def Form.Faithful :
    (form : Form) → List String → form.Result → List String → Prop
  | .items _, locals, result, locals' => FaithfulList locals result.1 locals'
  | .tail _ left, locals, node, locals' =>
    ∀ before, Toy.Faithful before left locals →
      Toy.Faithful before node locals'
  | .statement, locals, node, locals' | .chain _, locals, node, locals'
  | .operand _, locals, node, locals' | .unary, locals, node, locals'
  | .primary, locals, node, locals' => Toy.Faithful locals node locals'

theorem Derives.faithful {ctx : Context} {form : Form}
    {locals locals' : List String} {ts rest : List Token}
    {result : form.Result} {cost : Nat}
    (hderives : Derives ctx form locals ts result locals' rest cost)
    (hsound : AllSound ts) :
    form.Faithful locals result locals' := by
  induction hderives with
  | assignment hname _ _ ih =>
      exact .assign (hsound.head.isName hname) (ih hsound.tail.tail)
  | expression _ _ ih => exact ih hsound
  | chain hleft _ ihLeft ihTail =>
      exact ihTail (hsound.of_subset hleft.subset) _ (ihLeft hsound)
  | operandSum _ ih => exact ih hsound
  | operandProduct _ ih => exact ih hsound
  | tailEnd _ => exact fun _ hleft => hleft
  | tailOperator _ _ hright _ ihRight ihTail =>
      intro before hleft
      have hoperand := ihRight hsound.tail
      exact ihTail (hsound.tail.of_subset hright.subset) before
        (hleft.binary hoperand)
  | negativeLiteral _ hnode => exact .negated hsound.tail.head hnode
  | negation _ _ _ ih => exact .negate (ih hsound.tail)
  | unsigned _ _ ih => exact ih hsound
  | literal hnode => exact .literal hsound.head hnode
  | name hname _ => exact .nameNode (hsound.head.isName hname)
  | call hname _ _ ih =>
      exact .call (hsound.head.isName hname) (ih hsound.tail.tail)
  | group _ _ ih =>
      exact (ih (hsound.tail.of_subset (skipSeparators_subset _))).collapse
  | itemsEnd _ => exact FaithfulList.nil
  | itemsLast _ _ _ ih => exact .cons (ih hsound) .nil
  | itemsMore _ _ hitem _ ihItem ihItems =>
      have hrest := (hsound.of_subset hitem.subset).tail
      exact .cons (ihItem hsound)
        (ihItems (hrest.of_subset (Bracket.skip_subset _ _)))

/-- The statements of a program are faithful. -/
theorem DerivesProgram.faithful {ctx : Context} {locals locals' : List String}
    {ts : List Token} {nodes : List Node} {cost : Nat}
    (hderives : DerivesProgram ctx locals ts nodes locals' cost)
    (hsound : AllSound ts) :
    FaithfulList locals nodes locals' := by
  induction hderives with
  | nil => exact .nil
  | last hstatement => exact .cons (hstatement.faithful hsound) .nil
  | more _ hstatement _ ih =>
      have hrest := (hsound.of_subset hstatement.subset).tail
      exact .cons (hstatement.faithful hsound)
        (ih (hrest.of_subset (skipSeparators_subset _)))

end Reparse.Toy
