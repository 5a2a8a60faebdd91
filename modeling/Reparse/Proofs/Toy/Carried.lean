import Reparse.Proofs.Toy.Phrased
import Reparse.Proofs.Toy.Seams
import Reparse.Proofs.Toy.Spans

/-!
# Readings carried over

What tokens read as depends on little of what stands around them.  Behind them
a separator ends the reading as the end of the tokens does.  In front of them
it matters where they begin, for the places, and which names are assigned, for
names that stand alone; a name with parentheses behind it is a call in any
case.  The levels that are opened stay the same.
-/

namespace Reparse

/-! ## Nodes in another text -/

mutual

/-- The node in a text with this one put in front. -/
def Node.behind (front : List Char) : Node → Node
  | .mk kind children span =>
      .mk kind (Child.behindList front children) (span.map (Span.behind front))

def Child.behind (front : List Char) : Child → Child
  | .node n => .node (n.behind front)
  | .atom a => .atom a

def Child.behindList (front : List Char) : List Child → List Child
  | [] => []
  | c :: cs => c.behind front :: Child.behindList front cs

end

/-- The name that the node is, with nothing else in its place: a call with
parentheses has a longer one. -/
def Node.bareName? (node : Node) : Option String :=
  match node.kind, node.children, node.span with
  | "send", [.atom .nil, .atom (.sym name)], some span =>
    if span.stop = span.start + name.length then some name else none
  | _, _, _ => none

mutual

/-- The node where these names are assigned: those that stand alone are
variables. -/
def Node.resolve (names : List String) : Node → Node
  | .mk kind children span =>
    match (Node.mk kind children span).bareName?.filter (names.contains ·) with
    | some name => .mk "lvar" [.atom (.sym name)] span
    | none => .mk kind (Child.resolveList names children) span

def Child.resolve (names : List String) : Child → Child
  | .node n => .node (n.resolve names)
  | .atom a => .atom a

def Child.resolveList (names : List String) : List Child → List Child
  | [] => []
  | c :: cs => c.resolve names :: Child.resolveList names cs

end

def Node.carried (names : List String) (front : List Char) (node : Node) :
    Node :=
  (node.resolve names).behind front

namespace Toy

open Text

section Nodes

variable {names locals : List String} {front : List Char}
variable {node left right value : Node}
variable {nodes : List Node} {name kind : String} {children : List Child}
variable {span : Span}
variable {place : Option Span}

theorem resolve_of_bareName?
    (hbare : (Node.mk kind children place).bareName? = none) :
    (Node.mk kind children place).resolve names =
      .mk kind (Child.resolveList names children) place := by
  rw [Node.resolve, hbare]
  rfl

theorem bareName?_of_ne (hkind : kind ≠ "send") :
    (Node.mk kind children place).bareName? = none := by
  simp [Node.bareName?, Node.kind, hkind]

theorem span_carried (node : Node) :
    (node.carried names front).span = node.span.map (Span.behind front) := by
  obtain ⟨kind, children, place⟩ := node
  rw [Node.carried, Node.resolve]
  split <;> rfl

theorem carriedList_nodes (nodes : List Node) :
    Child.behindList front (Child.resolveList names (nodes.map .node)) =
      (nodes.map (Node.carried names front)).map .node := by
  induction nodes with
  | nil => rfl
  | cons node nodes ih =>
      rw [List.map_cons, Child.resolveList, Child.behindList, ih]
      rfl

/-- Nodes that are no names are carried over child by child. -/
theorem carried_of_bareName?
    (hbare : (Node.mk kind children place).bareName? = none) :
    (Node.mk kind children place).carried names front =
      .mk kind (Child.behindList front (Child.resolveList names children))
        (place.map (Span.behind front)) := by
  rw [Node.carried, resolve_of_bareName? hbare, Node.behind]

theorem carried_assign :
    (Node.mk "lvasgn" [symbol name, .node value] place).carried names front =
      .mk "lvasgn" [symbol name, .node (value.carried names front)]
        (place.map (Span.behind front)) :=
  carried_of_bareName? (bareName?_of_ne (by decide))

theorem carried_begin (nodes : List Node) (place : Option Span) :
    (Node.mk "begin" (nodes.map .node) place).carried names front =
      .mk "begin" ((nodes.map (Node.carried names front)).map .node)
        (place.map (Span.behind front)) := by
  rw [carried_of_bareName? (bareName?_of_ne (by decide)), carriedList_nodes]

theorem carried_negate :
    (Node.mk "send" [.node node, symbol name] place).carried names front =
      .mk "send" [.node (node.carried names front), symbol name]
        (place.map (Span.behind front)) :=
  carried_of_bareName? rfl

theorem covering_carried :
    covering (left.carried names front) (right.carried names front) =
      (covering left right).map (Span.behind front) := by
  unfold covering
  rw [span_carried, span_carried]
  cases left.span <;> cases right.span <;> rfl

theorem carried_binary (op : Operator) :
    (binary left op right).carried names front =
      binary (left.carried names front) op (right.carried names front) := by
  have hbare : (binary left op right).bareName? = none := rfl
  rw [binary, carried_of_bareName? hbare, binary, covering_carried]
  rfl

/-- A name without parentheses is settled by the names that are assigned in
front of it. -/
theorem carried_nameNode (hlength : span.stop = span.start + name.length) :
    (nameNode locals name span).carried names front =
      nameNode (locals ++ names) name (span.behind front) := by
  unfold nameNode
  by_cases hlocal : name ∈ locals
  · rw [if_pos hlocal, if_pos (List.mem_append_left _ hlocal)]
    exact carried_of_bareName? (bareName?_of_ne (by decide))
  have hbare :
      (Node.mk "send" [.atom .nil, symbol name] (some span)).bareName? =
        some name := by
    simp [Node.bareName?, Node.kind, Node.children, Node.span, symbol, hlength]
  rw [if_neg hlocal, Node.carried, Node.resolve, hbare]
  by_cases hname : name ∈ names
  · rw [if_pos (List.mem_append_right _ hname)]
    simp [Option.filter, hname, Node.behind, Child.behindList, Child.behind,
      symbol]
  · rw [if_neg (by simp [hlocal, hname])]
    simp [Option.filter, hname, Node.behind, Child.behindList, Child.behind,
      Child.resolveList, Child.resolve, symbol]

theorem carried_call (hlength : span.stop ≠ span.start + name.length) :
    (Node.mk "send" (.atom .nil :: symbol name :: nodes.map .node)
      (some span)).carried names front =
      .mk "send" (.atom .nil :: symbol name ::
        (nodes.map (Node.carried names front)).map .node)
        (some (span.behind front)) := by
  have hbare : (Node.mk "send" (.atom .nil :: symbol name :: nodes.map .node)
      (some span)).bareName? = none := by
    cases nodes with
    | nil =>
        simp [Node.bareName?, Node.kind, Node.children, Node.span, symbol,
          hlength]
    | cons node nodes => rfl
  rw [carried_of_bareName? hbare, ← carriedList_nodes]
  rfl

theorem collapse?_carried (nodes : List Node) :
    collapse? (nodes.map (Node.carried names front)) =
      (collapse? nodes).map (Node.carried names front) := by
  match nodes with
  | [] => rfl
  | [node] => rfl
  | first :: second :: more =>
      have hlast : ((second :: more).map (Node.carried names front)).getLast
          (List.cons_ne_nil _ _) =
            ((second :: more).getLast _).carried names front :=
        List.getLast_map _
      have hbegin := @carried_begin names front (first :: second :: more)
        (covering first ((second :: more).getLast (List.cons_ne_nil _ _)))
      rw [← covering_carried, ← hlast] at hbegin
      exact congrArg some hbegin.symm

theorem collapse_carried (nodes : List Node) :
    ((collapse? nodes).getD (.mk "begin" [] place)).carried names front =
      (collapse? (nodes.map (Node.carried names front))).getD
        (.mk "begin" [] (place.map (Span.behind front))) := by
  rw [collapse?_carried]
  cases collapse? nodes with
  | none => exact carried_begin [] _
  | some root => rfl

end Nodes

/-! ## Behind the tokens -/

section Behind

variable {ctx ctx' : Context} {mark : Token} {ts more : List Token}
variable {kind : TokenKind}

theorem peek_append_ne (hmark : mark.kind = .separator)
    (hkind : kind ≠ .separator) (hpeek : peek ts ≠ some kind) :
    peek (ts ++ mark :: more) ≠ some kind := by
  cases ts with
  | nil =>
      rintro ⟨⟩
      exact hkind hmark
  | cons t ts => exact hpeek

theorem not_isAssignment_append (hmark : mark.kind = .separator)
    (hplain : ¬ IsAssignment ts) :
    ¬ IsAssignment (ts ++ mark :: more) := by
  cases ts with
  | nil =>
      rw [List.nil_append, isAssignment_cons_iff, hmark]
      rintro ⟨⟨name, ⟨⟩⟩, -⟩
  | cons t ts =>
      rw [isAssignment_cons_iff] at hplain
      rw [List.cons_append, isAssignment_cons_iff]
      rintro ⟨hname, hpeek⟩
      exact peek_append_ne hmark (by decide) (fun hassign =>
        hplain ⟨hname, hassign⟩) hpeek

theorem not_continues_append {tier : Tier} (hmark : mark.kind = .separator)
    (hstop : ¬ Continues tier ts) : ¬ Continues tier (ts ++ mark :: more) := by
  cases ts with
  | nil =>
      rintro ⟨op, hop, -⟩
      simp only [List.nil_append, peek, List.head?_cons, Option.map_some,
        hmark, Option.bind_some] at hop
      cases hop
  | cons t ts => exact hstop

theorem skipSeparators_append_skip (ts more : List Token) :
    (skipSeparators (ts ++ more)).val =
      (skipSeparators ((skipSeparators ts).val ++ more)).val := by
  obtain ⟨separators, hseparators, hts⟩ := exists_separators ts
  have hall : ∀ t ∈ separators, isSeparator t = true := by
    intro t ht
    simp [isSeparator, hseparators t ht]
  conv_lhs => rw [hts, List.append_assoc]
  exact List.dropWhile_append_of_pos hall

theorem Bracket.skip_append (bracket : Bracket) (hts : bracket.skip ts ≠ []) :
    bracket.skip (ts ++ more) = bracket.skip ts ++ more := by
  cases bracket with
  | group =>
      change (ts ++ more).dropWhile isSeparator =
        ts.dropWhile isSeparator ++ more
      change ts.dropWhile isSeparator ≠ [] at hts
      rw [List.dropWhile_append, if_neg (by simpa using hts)]
  | call => rfl

theorem Derives.items_ne_nil {bracket : Bracket} {locals locals' : List String}
    {rest : List Token} {result : List Node × Nat} {cost : Nat}
    (hderives : Derives ctx (.items bracket) locals ts result locals'
      rest cost) : ts ≠ [] := by
  have hread := (hderives.settles cost).1 (Nat.le_refl _)
  have hlength := Form.length_lt_of_read (by simp) hread
  exact List.ne_nil_of_length_pos (by omega)

theorem literal?_congr (hsame : ctx.identification = ctx'.identification)
    (t : Token) :
    literal? ctx' t = literal? ctx t := by
  unfold literal?
  rw [hsame]

/-- A separator behind the tokens is left, with all that follows it. -/
theorem Derives.append {form : Form} {locals locals' : List String}
    {rest : List Token} {result : form.Result} {cost : Nat}
    (hsame : ctx.identification = ctx'.identification)
    (hseparator : mark.kind = .separator)
    (hderives : Derives ctx form locals ts result locals' rest cost) :
    Derives ctx' form locals (ts ++ mark :: more) result locals'
      (rest ++ mark :: more) cost := by
  induction hderives with
  | assignment hname hmark _ ih => exact .assignment hname hmark ih
  | expression hplain _ ih =>
      exact .expression (not_isAssignment_append hseparator hplain) ih
  | chain _ _ ihLeft ihTail => exact .chain ihLeft ihTail
  | operandSum _ ih => exact .operandSum ih
  | operandProduct _ ih => exact .operandProduct ih
  | tailEnd hstop => exact .tailEnd (not_continues_append hseparator hstop)
  | tailOperator hop htier _ _ ihRight ihTail =>
      exact .tailOperator hop htier ihRight ihTail
  | negativeLiteral hminus hnode => exact .negativeLiteral hminus hnode
  | @negation _ _ _ _ ts _ _ hminus hoperand _ ih =>
      refine .negation hminus (fun kind hkind => ?_) ih
      cases ts with
      | nil =>
          obtain rfl : mark.kind = kind := Option.some.inj hkind
          rw [hseparator]
          exact id
      | cons t ts => exact hoperand kind hkind
  | unsigned hpeek _ ih =>
      exact .unsigned (peek_append_ne hseparator (by decide) hpeek) ih
  | literal hnode => exact .literal ((literal?_congr hsame _).trans hnode)
  | name hname hpeek =>
      exact .name hname (peek_append_ne hseparator (by decide) hpeek)
  | call hname hparen _ ih => exact .call hname hparen ih
  | @group _ _ _ ts _ _ _ _ hparen hitems ih =>
      have hskip : (skipSeparators (ts ++ mark :: more)).val =
          (skipSeparators ts).val ++ mark :: more :=
        Bracket.group.skip_append hitems.items_ne_nil
      rw [← hskip] at ih
      exact .group hparen ih
  | itemsEnd hclose => exact .itemsEnd hclose
  | itemsLast hopen hclose _ ih =>
      exact .itemsLast (peek_append_ne hseparator (by decide) hopen) hclose ih
  | @itemsMore bracket _ _ _ _ _ _ _ _ _ _ _ _ hopen hmark _ hitems ihItem
        ihItems =>
      rw [← bracket.skip_append hitems.items_ne_nil] at ihItems
      exact .itemsMore (peek_append_ne hseparator (by decide) hopen) hmark
        ihItem ihItems

end Behind

/-! ## In front of the tokens -/

/-- What is read of the token is settled by its characters: it is not the
number of its line, and a name is as long as its place. -/
structure Token.IsPlain (t : Token) : Prop where
  ne_lineWord : t.kind ≠ .lineWord
  stop_eq :
    ∀ name, t.kind = .ident name → t.stop = t.start.offset + name.length

section Carried

variable {ctx ctx' : Context} {names locals locals' : List String}
variable {front text : List Char}
variable {comments : List Comment} {ts rest : List Token} {t minus : Token}
variable {node : Node}
variable {start : Nat}

theorem peek_behind (ts : List Token) :
    peek (ts.map (Token.behind front)) = peek ts := by
  cases ts <;> rfl

theorem isAssignment_behind_iff :
    IsAssignment (ts.map (Token.behind front)) ↔ IsAssignment ts := by
  unfold IsAssignment
  rw [List.map_map]
  rfl

theorem continues_behind_iff {tier : Tier} :
    Continues tier (ts.map (Token.behind front)) ↔ Continues tier ts := by
  unfold Continues
  rw [peek_behind]

theorem skipSeparators_behind (ts : List Token) :
    (skipSeparators (ts.map (Token.behind front))).val =
      (skipSeparators ts).val.map (Token.behind front) :=
  List.dropWhile_map

theorem Bracket.skip_behind (bracket : Bracket) (ts : List Token) :
    bracket.skip (ts.map (Token.behind front)) =
      (bracket.skip ts).map (Token.behind front) := by
  cases bracket with
  | group => exact skipSeparators_behind ts
  | call => rfl

theorem literal?_behind (hsame : ctx.identification = ctx'.identification)
    (hplain : t.IsPlain) (hnode : literal? ctx t = some node) :
    literal? ctx' (t.behind front) = some (node.carried names front) := by
  rw [literal?_congr hsame]
  obtain ⟨kind, begin, stop⟩ := t
  cases kind with
  | lineWord => exact absurd rfl hplain.ne_lineWord
  | bool value => cases value <;> cases hnode <;> rfl
  | _ =>
      first
        | cases hnode
          done
        | cases hnode
          rfl

theorem negated?_behind (hnode : negated? minus t = some node) :
    negated? (minus.behind front) (t.behind front) =
      some (node.carried names front) := by
  obtain ⟨kind, begin, stop⟩ := t
  cases kind with
  | int value | float value =>
      cases hnode
      rfl
  | _ => cases hnode

theorem stopOf_carried {span : Span} (hspan : node.span = some span) :
    stopOf (node.carried names front) = stopOf node + front.length := by
  rw [stopOf, stopOf, span_carried, hspan]
  rfl

/-- The tokens carried over read as the result in the same manner. -/
abbrev Carries (ctx : Context) (names : List String) (front : List Char)
    (form : Form) (locals : List String) (ts : List Token)
    (result : form.Result) (locals' : List String) (rest : List Token)
    (cost : Nat) : Prop :=
  Derives ctx form (locals ++ names) (ts.map (Token.behind front)) result
    (locals' ++ names)
    (rest.map (Token.behind front)) cost

/-- A reading of the form carried over: behind other names, in a text with
another in front. -/
def Form.Carried (ctx : Context) (names : List String) (front : List Char) :
    (form : Form) → List String → List Token → form.Result → List String →
      List Token → Nat → Prop
  | .statement, locals, ts, node, locals', rest, cost =>
    Carries ctx names front .statement locals ts (node.carried names front)
      locals' rest cost
  | .chain tier, locals, ts, node, locals', rest, cost =>
    Carries ctx names front (.chain tier) locals ts (node.carried names front)
      locals' rest cost
  | .operand tier, locals, ts, node, locals', rest, cost =>
    Carries ctx names front (.operand tier) locals ts
      (node.carried names front) locals' rest cost
  | .tail tier left, locals, ts, node, locals', rest, cost =>
    Carries ctx names front (.tail tier (left.carried names front)) locals ts
      (node.carried names front) locals' rest cost
  | .unary, locals, ts, node, locals', rest, cost =>
    Carries ctx names front .unary locals ts (node.carried names front) locals'
      rest cost
  | .primary, locals, ts, node, locals', rest, cost =>
    Carries ctx names front .primary locals ts (node.carried names front)
      locals' rest cost
  | .items bracket, locals, ts, result, locals', rest, cost =>
    Carries ctx names front (.items bracket) locals ts
      (result.1.map (Node.carried names front), result.2 + front.length)
        locals' rest cost

theorem Derives.carried {form : Form} {result : form.Result} {cost : Nat}
    (hsame : ctx.identification = ctx'.identification)
    (hderives : Derives ctx form locals ts result locals' rest cost)
    (hlaid : Laid text comments start ts) (hplain : ∀ t ∈ ts, t.IsPlain) :
    form.Carried ctx' names front locals ts result locals' rest cost := by
  induction hderives generalizing start with
  | @assignment t mark name _ _ _ _ value _ hname hmark hvalue ih =>
      obtain ⟨-, -, -, hlaid⟩ := hlaid.cons_inv
      obtain ⟨-, -, -, hlaid⟩ := hlaid.cons_inv
      obtain ⟨_, -, -, hlies⟩ := hvalue.lays hlaid
      obtain ⟨span, hspan, -⟩ := Lies.exists_span hlies
      have hcarried := ih hlaid fun t ht => hplain t (by simp [ht])
      have hsign : (mark.behind front).kind = .assign := hmark
      have hassign :=
        Derives.assignment (t := t.behind front) hname hsign hcarried
      simp only [Form.Carried, Carries]
      rw [carried_assign]
      rw [stopOf_carried hspan] at hassign
      exact hassign
  | expression hstart _ ih =>
      exact .expression (mt isAssignment_behind_iff.mp hstart)
        (ih hlaid hplain)
  | chain hleft _ ihLeft ihTail =>
      obtain ⟨_, -, hrest, -⟩ := hleft.lays hlaid
      exact .chain (ihLeft hlaid hplain) (ihTail hrest fun t ht =>
        hplain t (hleft.subset ht))
  | operandSum _ ih => exact .operandSum (ih hlaid hplain)
  | operandProduct _ ih => exact .operandProduct (ih hlaid hplain)
  | tailEnd hstop => exact .tailEnd (mt continues_behind_iff.mp hstop)
  | @tailOperator _ left right node _ op _ _ _ _ _ _ _ _ hop htier hright
        _ ihRight ihTail =>
      obtain ⟨-, -, -, hlaid⟩ := hlaid.cons_inv
      obtain ⟨_, -, hrest, -⟩ := hright.lays hlaid
      have hmore := List.forall_mem_of_forall_mem_cons hplain
      have htail := ihTail hrest fun t ht => hmore t (hright.subset ht)
      simp only [Form.Carried, Carries] at htail
      rw [carried_binary] at htail
      exact .tailOperator hop htier (ihRight hlaid hmore) htail
  | negativeLiteral hminus hnode =>
      exact .negativeLiteral hminus (negated?_behind hnode)
  | @negation minus node _ _ ts _ _ hminus hoperand hunary ih =>
      obtain ⟨-, -, -, hlaid⟩ := hlaid.cons_inv
      obtain ⟨_, -, -, hlies⟩ := hunary.lays hlaid
      obtain ⟨span, hspan, -⟩ := Lies.exists_span hlies
      have hcarried := ih hlaid (List.forall_mem_of_forall_mem_cons hplain)
      have hsign : (minus.behind front).kind = .minus := hminus
      have hnegation := Derives.negation hsign (by rwa [peek_behind]) hcarried
      simp only [Form.Carried, Carries]
      rw [carried_negate]
      rw [stopOf_carried hspan] at hnegation
      exact hnegation
  | unsigned hpeek _ ih =>
      exact .unsigned (by rwa [peek_behind]) (ih hlaid hplain)
  | literal hnode =>
      exact
        .literal (literal?_behind hsame (hplain _ List.mem_cons_self) hnode)
  | @name t name locals _ hname hpeek =>
      have hlength : t.span.stop = t.span.start + name.length :=
        (hplain t List.mem_cons_self).stop_eq name hname
      simp only [Form.Carried, Carries, carried_nameNode hlength]
      exact .name hname (by rwa [peek_behind])
  | @call t paren name _ _ _ _ nodes stop _ hname hparen hitems ih =>
      obtain ⟨hfirst, hspan, -, hlaid⟩ := hlaid.cons_inv
      obtain ⟨hsecond, hopen, -, hlaid⟩ := hlaid.cons_inv
      obtain ⟨_, hle, -, rfl, -⟩ := hitems.lays hlaid
      have hlength :
          (t.spanTo stop).stop ≠ (t.spanTo stop).start + name.length := by
        have hstop := (hplain t List.mem_cons_self).stop_eq name hname
        have hbefore := hsecond.trans_lt (hopen.start_lt.trans_le hle)
        rw [hstop] at hbefore
        exact hbefore.ne'
      have hcarried := ih hlaid fun t ht => hplain t (by simp [ht])
      simp only [Form.Carried, Carries]
      rw [carried_call hlength]
      have hopening : (paren.behind front).kind = .leftParen := hparen
      exact .call (t := t.behind front) hname hopening hcarried
  | @group t _ _ ts _ nodes stop _ hparen hitems ih =>
      obtain ⟨-, -, -, hlaid⟩ := hlaid.cons_inv
      obtain ⟨_, -, hlaid⟩ := hlaid.skipSeparators
      have hmore := List.forall_mem_of_forall_mem_cons hplain
      have hcarried := ih hlaid fun t ht =>
        hmore t (skipSeparators_subset _ ht)
      simp only [Form.Carried, Carries] at hcarried ⊢
      rw [← skipSeparators_behind] at hcarried
      rw [collapse_carried]
      exact .group (t := t.behind front) hparen hcarried
  | itemsEnd hclose => exact .itemsEnd hclose
  | @itemsLast _ t _ _ _ _ _ _ hopen hclose _ ih =>
      exact .itemsLast (t := t.behind front) (by rwa [peek_behind]) hclose
        (ih hlaid hplain)
  | @itemsMore bracket t _ _ _ _ _ _ _ _ _ _ _ hopen hmark hitem _ ihItem
        ihItems =>
      obtain ⟨_, -, hrest, -⟩ := hitem.lays hlaid
      obtain ⟨-, -, -, hrest⟩ := hrest.cons_inv
      obtain ⟨_, -, hrest⟩ := hrest.skip bracket
      have hcarried := ihItems hrest fun t ht =>
        hplain t
          (hitem.subset (List.mem_cons_of_mem _ (bracket.skip_subset _ ht)))
      simp only [Form.Carried, Carries] at hcarried
      rw [← bracket.skip_behind] at hcarried
      exact .itemsMore (t := t.behind front) (by rwa [peek_behind]) hmark
        (ihItem hlaid hplain)
        hcarried

end Carried

end Toy
end Reparse
