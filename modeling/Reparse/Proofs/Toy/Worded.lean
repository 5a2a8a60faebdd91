import Reparse.Proofs.Toy.Parsed
import Reparse.Proofs.Tree.Lines

/-!
# Parsed trees have words for kinds and symbols

The parser takes the kinds of its nodes from the grammar and their symbols from
the names, symbols and operators of the program, and none of these has a blank,
a parenthesis or a quote in it.
-/

namespace Reparse.Toy

open Text

/-! ## Kinds, names and symbols -/

def nodeKinds : List String :=
  ["int", "float", "str", "sym", "nil", "true", "false", "lvar", "lvasgn",
    "begin", "send"]

/-- The operators and the reserved words, which symbols may be as well as
names. -/
def fixedSymbols : List String :=
  ["+", "-", "*", "/", "-@"] ++ reservedWords

theorem isKind_of_mem {kind : String} (hkind : kind ∈ nodeKinds) :
    kind ≠ "" ∧ IsWord kind.toList := by
  have hall : ∀ kind ∈ nodeKinds, kind ≠ "" ∧
      kind.toList.all Notation.isWordChar = true := by
    decide +kernel
  exact ⟨(hall kind hkind).1, isWord_of_all (hall kind hkind).2⟩

theorem isWord_of_mem {name : String} (hname : name ∈ fixedSymbols) :
    IsWord name.toList := by
  have hall :
      ∀ name ∈ fixedSymbols, name.toList.all Notation.isWordChar = true := by
    decide +kernel
  exact isWord_of_all (hall name hname)

theorem isWord_symbol (op : Operator) : IsWord op.symbol.toList := by
  apply isWord_of_mem
  cases op <;> decide

theorem isWord_of_isName {name : String} (hname : isName name = true) :
    IsWord name.toList := by
  obtain ⟨c, r, htext, hc, hr, -⟩ := isName_cases hname
  rw [htext, isWord_iff]
  intro d hd
  have hword : isWordChar d = true := by
    rcases List.mem_cons.mp hd with rfl | hd
    · exact isWordChar_of_isWordStart hc
    · exact List.all_eq_true.mp hr d hd
  have hbounds := isWordChar_toNat hword
  exact isWordChar_of_toNat (by omega) (by omega)

theorem isWord_of_sound {name : String} (hsound : (TokenKind.sym name).Sound) :
    IsWord name.toList := by
  rcases hsound with hsymbol | hreserved
  · rcases isSymbol_cases hsymbol with hname | hoperator
    · exact isWord_of_isName hname
    · exact isWord_of_mem (List.mem_append_left _ hoperator)
  · exact isWord_of_mem (List.mem_append_right _ hreserved)

/-! ## Nodes -/

section Shapes

variable {node left right : Node} {nodes : List Node} {name : String}
variable {span : Option Span}

theorem worded_symbol (hword : IsWord name.toList) : (symbol name).Worded :=
  Child.worded_atom hword

theorem worded_bare {kind : String} (hkind : kind ∈ nodeKinds) :
    (Node.mk kind [] span).Worded :=
  Node.worded_mk (isKind_of_mem hkind) (List.forall_mem_nil _)

theorem worded_leaf {kind : String} {a : Atom} (hkind : kind ∈ nodeKinds)
    (hfits : a.Fits) : (Node.mk kind [.atom a] span).Worded :=
  Node.worded_mk (isKind_of_mem hkind)
    (List.forall_mem_singleton.mpr (Child.worded_atom hfits))

theorem worded_nodes (hnodes : ∀ node ∈ nodes, node.Worded) :
    ∀ c ∈ nodes.map Child.node, c.Worded := by
  intro c hc
  obtain ⟨node, hnode, rfl⟩ := List.mem_map.mp hc
  exact Child.worded_node_iff.mpr (hnodes node hnode)

theorem worded_assign (hname : isName name = true) (hnode : node.Worded) :
    (Node.mk "lvasgn" [symbol name, .node node] span).Worded := by
  apply Node.worded_mk (isKind_of_mem (by decide))
  intro c hc
  rcases List.mem_pair.mp hc with rfl | rfl
  · exact worded_symbol (isWord_of_isName hname)
  · exact Child.worded_node_iff.mpr hnode

theorem worded_negate (hnode : node.Worded) :
    (Node.mk "send" [.node node, symbol negationSymbol] span).Worded := by
  apply Node.worded_mk (isKind_of_mem (by decide))
  intro c hc
  rcases List.mem_pair.mp hc with rfl | rfl
  · exact Child.worded_node_iff.mpr hnode
  · exact worded_symbol (isWord_of_mem (by decide))

theorem worded_binary (op : Operator) (hleft : left.Worded)
    (hright : right.Worded) :
    (binary left op right).Worded := by
  apply Node.worded_mk (isKind_of_mem (by decide))
  intro c hc
  simp only [List.mem_cons, List.not_mem_nil, or_false] at hc
  rcases hc with rfl | rfl | rfl
  · exact Child.worded_node_iff.mpr hleft
  · exact worded_symbol (isWord_symbol op)
  · exact Child.worded_node_iff.mpr hright

theorem worded_call (hname : isName name = true)
    (hnodes : ∀ node ∈ nodes, node.Worded) :
    (Node.mk "send" (.atom .nil :: symbol name :: nodes.map .node)
      span).Worded := by
  apply Node.worded_mk (isKind_of_mem (by decide))
  intro c hc
  rcases List.mem_cons.mp hc with rfl | hc
  · exact Child.worded_atom trivial
  rcases List.mem_cons.mp hc with rfl | hc
  · exact worded_symbol (isWord_of_isName hname)
  · exact worded_nodes hnodes c hc

theorem worded_begin (hnodes : ∀ node ∈ nodes, node.Worded) :
    (Node.mk "begin" (nodes.map .node) span).Worded :=
  Node.worded_mk (isKind_of_mem (by decide)) (worded_nodes hnodes)

theorem worded_collapse (hnodes : ∀ node ∈ nodes, node.Worded) :
    ((collapse? nodes).getD (.mk "begin" [] span)).Worded := by
  match nodes, hnodes with
  | [], hnodes => exact worded_begin hnodes
  | [node], hnodes => exact hnodes node List.mem_cons_self
  | _ :: _ :: _, hnodes => exact worded_begin hnodes

theorem worded_nameNode (locals : List String) (hname : isName name = true)
    (span : Span) :
    (nameNode locals name span).Worded := by
  unfold nameNode
  split
  · exact worded_leaf (by decide) (isWord_of_isName hname)
  · have hnone : ∀ node ∈ ([] : List Node), node.Worded := by simp
    exact worded_call hname hnone

theorem worded_literal {ctx : Context} {t : Token} (hsound : t.kind.Sound)
    (hnode : literal? ctx t = some node) : node.Worded := by
  unfold literal? at hnode
  cases hkind : t.kind with
  | int _ | float _ | str _ | bytes _ | lineWord | fileWord =>
      rw [hkind] at hnode
      cases hnode
      exact worded_leaf (by decide) trivial
  | sym name =>
      rw [hkind] at hnode hsound
      cases hnode
      exact worded_leaf (by decide) (isWord_of_sound hsound)
  | nil =>
      rw [hkind] at hnode
      cases hnode
      exact worded_bare (by decide)
  | bool value =>
      rw [hkind] at hnode
      cases value <;> cases hnode <;> exact worded_bare (by decide)
  | ident _ | leftParen | rightParen | comma | plus | minus | star | slash
  | assign | separator =>
      rw [hkind] at hnode
      cases hnode

theorem worded_negated {minus t : Token}
    (hnode : negated? minus t = some node) : node.Worded := by
  unfold negated? at hnode
  split at hnode
  · cases hnode
    exact worded_leaf (by decide) trivial
  · cases hnode
    exact worded_leaf (by decide) trivial
  · cases hnode

end Shapes

/-! ## Derivations -/

def AllNamed (ts : List Token) : Prop :=
  ∀ t ∈ ts, t.kind.Sound

theorem AllNamed.of_subset {ts rest : List Token} (hnamed : AllNamed ts)
    (hsubset : rest ⊆ ts) :
    AllNamed rest :=
  fun t ht => hnamed t (hsubset ht)

theorem AllNamed.tail {t : Token} {ts : List Token}
    (hnamed : AllNamed (t :: ts)) : AllNamed ts :=
  hnamed.of_subset (List.subset_cons_self t ts)

theorem AllNamed.isName {t : Token} {ts : List Token} {name : String}
    (hnamed : AllNamed (t :: ts)) (hkind : t.kind = .ident name) :
    Toy.isName name = true := by
  have hsound := hnamed t List.mem_cons_self
  rw [hkind] at hsound
  exact hsound

/-- What a form reads has words for kinds and symbols; a tail adds nothing else
to its operand. -/
def Form.Worded : (form : Form) → form.Result → Prop
  | .items _, result => ∀ node ∈ result.1, node.Worded
  | .tail _ left, node => left.Worded → node.Worded
  | .statement, node | .chain _, node | .operand _, node | .unary, node
  | .primary, node =>
    node.Worded

theorem Derives.worded {ctx : Context} {form : Form}
    {locals locals' : List String} {ts rest : List Token}
    {result : form.Result} {cost : Nat}
    (hderives : Derives ctx form locals ts result locals' rest cost)
    (hnamed : AllNamed ts) :
    form.Worded result := by
  induction hderives with
  | assignment hname _ _ ih =>
      exact worded_assign (hnamed.isName hname) (ih hnamed.tail.tail)
  | expression _ _ ih => exact ih hnamed
  | chain hleft _ ihLeft ihTail =>
      exact ihTail (hnamed.of_subset hleft.subset) (ihLeft hnamed)
  | operandSum _ ih => exact ih hnamed
  | operandProduct _ ih => exact ih hnamed
  | tailEnd _ => exact id
  | tailOperator _ _ hright _ ihRight ihTail =>
      intro hleft
      have hoperand := ihRight hnamed.tail
      exact ihTail (hnamed.tail.of_subset hright.subset)
        (worded_binary _ hleft hoperand)
  | negativeLiteral _ hnode => exact worded_negated hnode
  | negation _ _ _ ih => exact worded_negate (ih hnamed.tail)
  | unsigned _ _ ih => exact ih hnamed
  | literal hnode => exact worded_literal (hnamed _ List.mem_cons_self) hnode
  | name hname _ => exact worded_nameNode _ (hnamed.isName hname) _
  | call hname _ _ ih =>
      exact worded_call (hnamed.isName hname) (ih hnamed.tail.tail)
  | group _ _ ih =>
      exact
        worded_collapse (ih (hnamed.tail.of_subset (skipSeparators_subset _)))
  | itemsEnd _ => exact List.forall_mem_nil _
  | itemsLast _ _ _ ih => exact List.forall_mem_singleton.mpr (ih hnamed)
  | itemsMore _ _ hitem _ ihItem ihItems =>
      have hrest := (hnamed.of_subset hitem.subset).tail
      have hmore := ihItems (hrest.of_subset (Bracket.skip_subset _ _))
      exact List.forall_mem_cons.mpr ⟨ihItem hnamed, hmore⟩

theorem DerivesProgram.worded {ctx : Context} {locals locals' : List String}
    {ts : List Token} {nodes : List Node} {cost : Nat}
    (hderives : DerivesProgram ctx locals ts nodes locals' cost)
    (hnamed : AllNamed ts) :
    ∀ node ∈ nodes, node.Worded := by
  induction hderives with
  | nil => exact List.forall_mem_nil _
  | last hstatement =>
      exact List.forall_mem_singleton.mpr (hstatement.worded hnamed)
  | more _ hstatement _ ih =>
      have hrest := (hnamed.of_subset hstatement.subset).tail
      have hmore := ih (hrest.of_subset (skipSeparators_subset _))
      exact List.forall_mem_cons.mpr ⟨hstatement.worded hnamed, hmore⟩

/-! ## Sources -/

theorem allNamed_of_lexFrom {encoding : Encoding} {place : Place}
    {s : List Char} {lexed : Lexed}
    (hlex : lexFrom encoding place s = .ok lexed) : AllNamed lexed.tokens := by
  fun_induction lexFrom encoding place s generalizing lexed with
  | case1 =>
      cases hlex
      exact List.forall_mem_nil _
  | case2 place c r hskipped =>
      rename_i ih
      exact ih hlex
  | case3 place r length lexed' hmore hskipped =>
      rename_i ih
      cases hlex
      have htokens := ih hmore
      exact htokens
  | case4 => cases hlex
  | case5 => cases hlex
  | case6 place c r hskipped hmark kind next rest hrest hscan lexed' hmore =>
      rename_i ih
      cases hlex
      have htokens := ih hmore
      exact List.forall_mem_cons.mpr ⟨sound_of_scanToken hscan, htokens⟩
  | case7 => cases hlex

theorem worded_of_parse {keep : Bool} {source : Source}
    {identification : String} {tree : Tree}
    (hparse : parse keep source identification = .ok tree) : tree.Worded := by
  obtain ⟨lexed, nodes, hlex, hread, rfl⟩ := parse_eq_ok hparse
  obtain ⟨locals', cost, -, hprogram⟩ := derivesProgram_of_statements hread
  have hnamed := allNamed_of_lexFrom hlex
  have hnodes := hprogram.worded (hnamed.of_subset (skipSeparators_subset _))
  have hroot : ((collapse? nodes).getD (.mk "begin" [] none)).Worded :=
    worded_collapse hnodes
  intro root hmem
  have hcollapse : collapse? nodes = some root := hmem
  rwa [hcollapse] at hroot

end Reparse.Toy
