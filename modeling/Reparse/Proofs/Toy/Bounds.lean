import Reparse.Proofs.Toy.Acceptance
import Reparse.Proofs.Toy.Costs

/-!
# No text weighs less than it costs

Tokens that are read weigh at least what the expression costs that they read
as.  The reader of an operand asks for a level, and where the expression has a
lower one, the tokens have parentheses for it; so at every level the tokens
weigh as much as the expression with its parentheses.  What is read is an
expression without parentheses that change nothing, hence a text that weighs
just what its expression costs has none of them.
-/

namespace Reparse.Toy

namespace Expr

def operandCost (locals : List String) (e : Expr) : Nat :=
  wrapCost (e.needsParens && !e.isSigned) (e.cost locals)

section Wraps

variable {locals : List String} {e : Expr} {least higher n : Nat}
variable {parens : Bool}

theorem wrapCost_le (parens : Bool) (n : Nat) : wrapCost parens n ≤ n + 1 := by
  unfold wrapCost
  split <;> omega

theorem le_wrapCost (parens : Bool) (n : Nat) : n ≤ wrapCost parens n := by
  unfold wrapCost
  split <;> omega

theorem wrapCost_level_mono (hle : least ≤ higher) :
    wrapCost (e.level < least) n ≤ wrapCost (e.level < higher) n := by
  by_cases hlevel : e.level < least
  · have hhigher : e.level < higher := Nat.lt_of_lt_of_le hlevel hle
    simp [wrapCost, hlevel, hhigher]
  · have hbare : wrapCost (decide (e.level < least)) n = n := by
      simp [wrapCost, hlevel]
    rw [hbare]
    exact le_wrapCost _ _

theorem wrapCost_of_le (hle : least ≤ e.level) :
    wrapCost (e.level < least) n = n := by
  simp [wrapCost, Nat.not_lt.mpr hle]

theorem wrapCost_le_operandCost (locals : List String) (e : Expr) :
    wrapCost (e.level < unaryLevel) (e.cost locals) ≤
      e.operandCost locals := by
  by_cases hlevel : e.level < unaryLevel
  · have hsigned : e.isSigned = false := by
      by_contra hsigned
      have heq := level_of_isSigned (by simpa using hsigned)
      omega
    simp [operandCost, wrapCost, needsParens, hlevel, hsigned]
  · rw [wrapCost_of_le (Nat.le_of_not_lt hlevel)]
    exact le_wrapCost _ _

theorem operandCost_of_not (hparens : e.needsParens = false) :
    e.operandCost locals = e.cost locals := by
  rw [operandCost, hparens]
  rfl

end Wraps

end Expr

/-! ## Bounds -/

open Reparse.Toy.Expr

/-- The tokens up to `rest` weigh at least that much. -/
def Bounds (lead : Lead) (ts rest : List Token) (n : Nat) : Prop :=
  n + weigh Lead.isMinus .operand (rest.map (·.kind)) ≤
    weigh Lead.isMinus lead (ts.map (·.kind))

/-- The tokens weigh what the expression costs as an operand of a minus, unless
they begin with the number that the minus would become part of. -/
structure BoundsOperand (locals : List String) (lead : Lead)
    (ts rest : List Token) (e : Expr) : Prop where
  bare : Bounds lead ts rest (wrapCost (e.level < unaryLevel) (e.cost locals))
  operand : (∀ kind ∈ peek ts, ¬ IsNumber kind) →
    Bounds lead ts rest (e.operandCost locals)

/-- The tokens of a form weigh at least what is read costs, with the
parentheses that the form needs around it.  A tail adds what it costs to its
operand. -/
def Form.Outweighs :
    (form : Form) → List String → List Token → form.Result → List Token → Prop
  | .statement, locals, ts, node, rest =>
      ∀ lead, Bounds lead ts rest ((ofNode node).cost locals)
  | .chain tier, locals, ts, node, rest =>
    ∀ lead, Bounds lead ts rest
      (wrapCost ((ofNode node).level < tier.level) ((ofNode node).cost locals))
  | .operand tier, locals, ts, node, rest =>
    ∀ lead, Bounds lead ts rest
      (wrapCost ((ofNode node).level < tier.level + 1)
        ((ofNode node).cost locals))
  | .tail tier left, locals, ts, node, rest =>
    ∀ before, Toy.Faithful before left locals →
      wrapCost ((ofNode node).level < tier.level) ((ofNode node).cost before) +
          weigh Lead.isMinus .operand (rest.map (·.kind)) ≤
        wrapCost ((ofNode left).level < tier.level)
          ((ofNode left).cost before) +
          weigh Lead.isMinus .operand (ts.map (·.kind))
  | .unary, locals, ts, node, rest | .primary, locals, ts, node, rest =>
    ∀ lead, BoundsOperand locals lead ts rest (ofNode node)
  | .items _, locals, ts, result, rest =>
    ∀ lead, Bounds lead ts rest (costList locals (result.1.map ofNode))

section Shapes

variable {locals locals' locals'' : List String} {ts rest : List Token}
variable {node left right : Node}
variable {t : Token} {lead : Lead} {n m : Nat}

theorem BoundsOperand.of_operand {e : Expr}
    (hbounds : Bounds lead ts rest (e.operandCost locals)) :
    BoundsOperand locals lead ts rest e :=
  ⟨(Nat.add_le_add_right (wrapCost_le_operandCost locals e) _).trans hbounds,
    fun _ => hbounds⟩

theorem weigh_skipSeparators {spares : Lead → Bool} (ts : List Token) :
    weigh spares .other ((skipSeparators ts).val.map (·.kind)) =
      weigh spares .other (ts.map (·.kind)) := by
  induction ts with
  | nil => rfl
  | cons t ts ih =>
      by_cases hkind : t.kind = .separator
      · have hskip :
            (skipSeparators (t :: ts)).val = (skipSeparators ts).val :=
          List.dropWhile_cons_of_pos (by simp [isSeparator, hkind])
        rw [hskip, ih, List.map_cons, hkind, weigh_separator]
      · have hskip : (skipSeparators (t :: ts)).val = t :: ts :=
          List.dropWhile_cons_of_neg (by simp [isSeparator, hkind])
        rw [hskip]

theorem Bounds.token (hkind : t.kind.endsOperand = true)
    (hn : n ≤ t.kind.weight) :
    Bounds lead (t :: rest) rest n := by
  unfold Bounds
  rw [List.map_cons, weigh_operand hkind]
  exact Nat.add_le_add_right hn _

/-! ### Numbers and other leaves -/

theorem BoundsOperand.leaf {e : Expr} (hnode : ofNode node = e)
    (hkind : t.kind.endsOperand = true)
    (hcost : e.operandCost locals ≤ t.kind.weight) :
    BoundsOperand locals lead (t :: rest) rest (ofNode node) := by
  rw [hnode]
  exact .of_operand (.token hkind hcost)

theorem BoundsOperand.number {e : Expr} (hnode : ofNode node = e)
    (hnumber : IsNumber t.kind) (hlevel : unaryLevel ≤ e.level)
    (hcost : e.cost locals ≤ t.kind.weight) :
    BoundsOperand locals lead (t :: rest) rest (ofNode node) := by
  rw [hnode]
  refine ⟨?_, fun hoperand => absurd hnumber (hoperand t.kind rfl)⟩
  rw [wrapCost_of_le hlevel]
  exact .token (endsOperand_of_isNumber hnumber) hcost

theorem operandCost_int_le (value : Int64) :
    (int value).operandCost locals ≤ 2 := by
  by_cases hvalue : value < 0 <;>
    simp [operandCost, cost, wrapCost, needsParens, isNumeral, isSigned,
      hvalue]

/-- The number of a line weighs two, as it may stand behind a minus without
parentheses. -/
theorem boundsOperand_literal {ctx : Context}
    (hnode : literal? ctx t = some node) :
    BoundsOperand locals lead (t :: rest) rest (ofNode node) := by
  obtain ⟨kind, start, stop⟩ := t
  cases kind with
  | int value =>
      cases hnode
      exact .number (by simp [ofNode]) trivial (unaryLevel_le_int value)
        (Nat.le_refl _)
  | float value =>
      cases hnode
      exact .number (by simp [ofNode]) trivial (unaryLevel_le_float value)
        (Nat.le_refl _)
  | str text =>
      cases hnode
      exact .leaf (e := .str text) (by simp [ofNode]) rfl (Nat.le_refl _)
  | bytes data =>
      cases hnode
      exact .leaf (e := .bytes data) (by simp [ofNode]) rfl (Nat.le_refl _)
  | sym name =>
      cases hnode
      by_cases hsymbol : isSymbol name = true
      · exact .leaf (e := .sym name) (by simp [ofNode, symbol, hsymbol]) rfl
          (Nat.le_refl _)
      · exact .leaf (by simp [ofNode, symbol, hsymbol]; rfl) rfl
          (Nat.zero_le _)
  | nil =>
      cases hnode
      exact .leaf (e := .nil) (by simp [ofNode]) rfl (Nat.le_refl _)
  | bool value =>
      cases value with
      | true =>
          cases hnode
          exact .leaf (e := .bool true) (by simp [ofNode]) rfl (Nat.le_refl _)
      | false =>
          cases hnode
          exact .leaf (e := .bool false) (by simp [ofNode]) rfl (Nat.le_refl _)
  | lineWord =>
      cases hnode
      exact .leaf (by simp [ofNode]; rfl) rfl (operandCost_int_le _)
  | fileWord =>
      cases hnode
      exact .leaf (e := .str ctx.identification) (by simp [ofNode]) rfl
        (Nat.le_refl _)
  | _ => cases hnode

theorem operandCost_negated {minus : Token}
    (hnode : negated? minus t = some node) :
    (ofNode node).operandCost locals ≤ 1 + t.kind.weight := by
  obtain ⟨kind, start, stop⟩ := t
  cases kind with
  | int value =>
      cases hnode
      have hexpr :
          ofNode
            (.mk "int" [.atom (.int (-value))] (some (minus.spanTo stop))) =
          .int (-value) := by simp [ofNode]
      have hcost : (int (-value)).operandCost locals ≤ 2 :=
        operandCost_int_le _
      have hweight : 1 ≤ (TokenKind.int value).weight := by
        simp only [TokenKind.weight]
        split <;> omega
      rw [hexpr]
      dsimp only
      omega
  | float value =>
      cases hnode
      have hexpr :
          ofNode (.mk "float" [.atom (.float value.neg)]
            (some (minus.spanTo stop))) =
          .float value.neg := by simp [ofNode]
      rw [hexpr]
      cases hsign : value.isNegative <;>
        simp [operandCost, cost, wrapCost, needsParens, isNumeral, isSigned,
          TokenKind.weight, hsign]
  | _ => cases hnode

theorem boundsOperand_negated {minus : Token} (hminus : minus.kind = .minus)
    (hnode : negated? minus t = some node) :
    BoundsOperand locals lead (minus :: t :: rest) rest (ofNode node) := by
  have hnumber : IsNumber t.kind := by
    by_contra hnot
    rw [negated?_eq_none_iff.mpr hnot] at hnode
    cases hnode
  have hcost := @operandCost_negated locals node t minus hnode
  apply BoundsOperand.of_operand
  unfold Bounds
  rw [List.map_cons, List.map_cons, hminus, weigh_cons_of_ne (by decide),
    weigh_operand (endsOperand_of_isNumber hnumber)]
  simp only [TokenKind.weight] at hcost ⊢
  omega

/-! ### Larger shapes -/

theorem bounds_assign {mark : Token} {name : String} {span : Option Span}
    (hname : t.kind = .ident name) (hmark : mark.kind = .assign)
    (hsound : isName name = true)
    (hvalue : Bounds .other ts rest ((ofNode node).cost (name :: locals))) :
    Bounds lead (t :: mark :: ts) rest
      ((ofNode (.mk "lvasgn" [symbol name, .node node] span)).cost
        locals) := by
  unfold Bounds at hvalue ⊢
  rw [ofNode_assign hsound, cost, List.map_cons, List.map_cons, hname, hmark,
    weigh_operand rfl,
    weigh_assign]
  simp only [TokenKind.weight]
  omega

theorem bounds_negate {minus : Token} {span : Option Span}
    (hminus : minus.kind = .minus)
    (hoperand : Bounds (lead.next .minus) ts rest
      ((ofNode node).operandCost locals)) :
    BoundsOperand locals lead (minus :: ts) rest
      (ofNode (.mk "send" [.node node, symbol negationSymbol] span)) := by
  rw [ofNode_negate]
  apply BoundsOperand.of_operand
  rw [operandCost_of_not rfl, cost]
  unfold Bounds operandCost at *
  rw [List.map_cons, hminus, weigh_cons_of_ne (by decide)]
  simp only [TokenKind.weight]
  omega

theorem token_of_ofToken? {kind : TokenKind} {op : Operator}
    (hop : Operator.ofToken? kind = some op) : kind = op.token := by
  cases kind <;> cases hop <;> rfl

theorem bounds_binary {op : Operator}
    (hop : Operator.ofToken? t.kind = some op)
    (hleft : Faithful locals left locals')
    (hright : Bounds (Lead.next .operand t.kind) ts rest
      (wrapCost ((ofNode right).level < op.tier.level + 1)
        ((ofNode right).cost locals'))) :
    wrapCost ((ofNode (binary left op right)).level < op.tier.level)
          ((ofNode (binary left op right)).cost locals) +
        weigh Lead.isMinus .operand (rest.map (·.kind)) ≤
      wrapCost ((ofNode left).level < op.tier.level)
        ((ofNode left).cost locals) +
        weigh Lead.isMinus .operand ((t :: ts).map (·.kind)) := by
  have hkind := token_of_ofToken? hop
  have hparen : t.kind ≠ .leftParen := by
    rw [hkind]
    cases op <;> decide
  have hlevel :
      op.tier.level ≤ ((ofNode left).infixed op (ofNode right)).level :=
    Nat.le_refl _
  unfold Bounds at hright
  rw [ofNode_binary, wrapCost_of_le hlevel, cost, hleft.assigned,
    List.map_cons,
    weigh_cons_of_ne hparen, hkind]
  rw [hkind] at hright
  omega

theorem boundsOperand_name {name : String} {span : Span}
    (hname : t.kind = .ident name) (hsound : isName name = true) :
    BoundsOperand locals lead (t :: rest) rest
      (ofNode (nameNode locals name span)) := by
  have hkind : t.kind.endsOperand = true := by
    rw [hname]
    rfl
  have hweight : t.kind.weight = 1 := by
    rw [hname]
    rfl
  unfold nameNode
  by_cases hlocal : name ∈ locals
  · rw [if_pos hlocal]
    have hnode :
        ofNode (.mk "lvar" [symbol name] (some span)) = .var name := by
      simp [ofNode, symbol, hsound]
    exact .leaf hnode hkind (Nat.le_of_eq hweight.symm)
  · rw [if_neg hlocal]
    refine .leaf (@ofNode_call [] name (some span) hsound) hkind ?_
    rw [hweight, operandCost_of_not rfl, cost]
    simp [wrapCost, costList, hlocal]

theorem boundsOperand_call {paren : Token} {name : String} {nodes : List Node}
    {span : Option Span} (hname : t.kind = .ident name)
    (hparen : paren.kind = .leftParen) (hsound : isName name = true)
    (hitems : Bounds .other ts rest (costList locals (nodes.map ofNode))) :
    BoundsOperand locals lead (t :: paren :: ts) rest
      (ofNode
        (.mk "send" (.atom .nil :: symbol name :: nodes.map .node) span)) := by
  rw [ofNode_call hsound]
  apply BoundsOperand.of_operand
  have hwrap :=
    wrapCost_le (!((nodes.map ofNode).isEmpty && decide (name ∉ locals)))
      (costList locals (nodes.map ofNode))
  rw [operandCost_of_not rfl, cost]
  unfold Bounds at hitems ⊢
  rw [List.map_cons, List.map_cons, hname, hparen, weigh_operand rfl,
    weigh_paren fun hspared => absurd hspared.1 (by decide)]
  simp only [TokenKind.weight]
  omega

theorem cost_collapse_le (locals : List String) (nodes : List Node)
    (span : Option Span) :
    (ofNode ((collapse? nodes).getD (.mk "begin" [] span))).operandCost
      locals ≤
      1 + costList locals (nodes.map ofNode) := by
  match nodes with
  | [] =>
      have hnode : ofNode (.mk "begin" [] span) = .sequence [] :=
        @ofNode_begin [] span
      change (ofNode (.mk "begin" [] span)).operandCost locals ≤ 1 + 0
      rw [hnode]
      exact Nat.le_refl _
  | [node] =>
      have hwrap :=
        wrapCost_le ((ofNode node).needsParens && !(ofNode node).isSigned)
          ((ofNode node).cost locals)
      change (ofNode node).operandCost locals ≤
        1 + ((ofNode node).cost locals + 0)
      unfold operandCost
      omega
  | first :: second :: others =>
      change (ofNode (.mk "begin" ((first :: second :: others).map .node)
        _)).operandCost locals ≤ _
      rw [ofNode_begin]
      exact Nat.le_refl _

end Shapes

/-! ## Groups -/

section Groups

variable {ctx : Context} {locals locals' : List String} {ts rest : List Token}
variable {t minus number close : Token} {nodes : List Node} {lead : Lead}
variable {stop cost : Nat}

/-- A negative number in front of a closing parenthesis is all that is read in
the parentheses. -/
theorem derives_signed (hminus : minus.kind = .minus)
    (hnumber : IsNumber number.kind) (hclose : close.kind = .rightParen)
    (locals : List String) (rest : List Token) :
    ∃ node cost, negated? minus number = some node ∧
      Derives ctx (.items .group) locals (minus :: number :: close :: rest)
        ([node], close.stop)
        locals rest cost := by
  obtain ⟨node, hnode⟩ : ∃ node, negated? minus number = some node := by
    refine Option.ne_none_iff_exists'.mp fun hnone => ?_
    exact negated?_eq_none_iff.mp hnone hnumber
  have hstop : ∀ tier, ¬ Continues tier (close :: rest) := by
    rintro tier ⟨op, hop, -⟩
    simp [peek, hclose, Operator.ofToken?] at hop
  have hunary :
      Derives ctx .unary locals (minus :: number :: close :: rest) node locals
        (close :: rest) 0 := .negativeLiteral hminus hnode
  have hproduct :=
    Derives.chain (.operandProduct hunary) (.tailEnd (hstop .product))
  have hsum := Derives.chain (.operandSum hproduct) (.tailEnd (hstop .sum))
  have hplain : ¬ IsAssignment (minus :: number :: close :: rest) := by
    intro hassign
    obtain ⟨t, mark, more, name, hts, hname, -⟩ := hassign.shape
    obtain ⟨rfl, -⟩ := List.cons.inj hts
    rw [hminus] at hname
    cases hname
  have hopen : peek (minus :: number :: close :: rest) ≠ some .rightParen := by
    simp [peek, hminus]
  exact ⟨node, _, hnode, .itemsLast hopen hclose (.expression hplain hsum)⟩

/-- The parenthesis of a group weighs one, or stands between a minus and a
negative number. -/
theorem boundsOperand_group (hparen : t.kind = .leftParen)
    (hderives : Derives ctx (.items .group) locals (skipSeparators ts).val
      (nodes, stop) locals' rest cost)
    (hitems : Bounds .other (skipSeparators ts).val rest
      (costList locals (nodes.map ofNode))) (span : Option Span) :
    BoundsOperand locals lead (t :: ts) rest
      (ofNode ((collapse? nodes).getD (.mk "begin" [] span))) := by
  apply BoundsOperand.of_operand
  by_cases hspared : lead.isMinus = true ∧
    closesSigned (ts.map (·.kind)) = true
  · -- Nothing but the number is read, and it costs no more than its tokens
    -- weigh without parentheses.
    obtain ⟨number, more, hnumber, hkinds⟩ := closesSigned_iff.mp hspared.2
    obtain ⟨minus, ts, rfl, hminus, hsigned⟩ := List.map_eq_cons_iff.mp hkinds
    obtain ⟨number, ts, rfl, rfl, hclosed⟩ := List.map_eq_cons_iff.mp hsigned
    obtain ⟨close, ts, rfl, hclose, rfl⟩ := List.map_eq_cons_iff.mp hclosed
    have hskip : (skipSeparators (minus :: number :: close :: ts)).val =
        minus :: number :: close :: ts :=
      skipSeparators_of_peek_ne (by simp [peek, hminus])
    rw [hskip] at hderives
    obtain ⟨node, cost', hnode, hsigned⟩ :=
      derives_signed hminus hnumber hclose locals ts
    obtain ⟨hresult, -, rfl⟩ := hderives.unique hsigned
    obtain rfl : nodes = [node] := congrArg Prod.fst hresult
    have hcost := @operandCost_negated locals node number minus hnode
    have hgroup : (collapse? [node]).getD (.mk "begin" [] span) = node := rfl
    unfold Bounds
    rw [hgroup, List.map_cons, hparen, weigh_spared hspared.1 hspared.2,
      List.map_cons, List.map_cons, List.map_cons, hminus, hclose,
      weigh_cons_of_ne (by decide),
      weigh_operand (endsOperand_of_isNumber hnumber), weigh_rightParen]
    simp only [TokenKind.weight] at hcost ⊢
    omega
  · have hcost := cost_collapse_le locals nodes span
    unfold Bounds at hitems ⊢
    rw [weigh_skipSeparators] at hitems
    rw [List.map_cons, hparen, weigh_paren hspared]
    omega

theorem bounds_cons {bracket : Bracket} {node : Node} {more : List Token}
    (hmark : t.kind = bracket.mark) (hnode : Faithful locals node locals')
    (hitem : Bounds lead ts (t :: more) ((ofNode node).cost locals))
    (hitems : Bounds .other (bracket.skip more) rest
      (costList locals' (nodes.map ofNode))) :
    Bounds lead ts rest (costList locals ((node :: nodes).map ofNode)) := by
  have hnext : weigh Lead.isMinus .operand ((t :: more).map (·.kind)) =
      weigh Lead.isMinus .other ((bracket.skip more).map (·.kind)) := by
    rw [List.map_cons, hmark]
    cases bracket with
    | group => exact weigh_separator.trans (weigh_skipSeparators more).symm
    | call => exact weigh_comma
  unfold Bounds at hitem hitems ⊢
  rw [hnext] at hitem
  rw [List.map_cons, costList, hnode.assigned]
  omega

end Groups

/-! ## Derivations -/

/-- What is read costs no more than the tokens weigh. -/
theorem Derives.outweighs {ctx : Context} {form : Form}
    {locals locals' : List String} {ts rest : List Token}
    {result : form.Result} {cost : Nat}
    (hderives : Derives ctx form locals ts result locals' rest cost)
    (hsound : AllSound ts) :
    form.Outweighs locals ts result rest := by
  induction hderives with
  | assignment hname hmark _ ih =>
      exact fun _ =>
        bounds_assign hname hmark (hsound.head.isName hname)
          (ih hsound.tail.tail .other)
  | expression _ _ ih =>
      intro lead
      have hchain := ih hsound lead
      unfold Bounds at hchain ⊢
      exact (Nat.add_le_add_right (le_wrapCost _ _) _).trans hchain
  | @chain tier locals _ _ _ _ _ left _ _ _ hleft _ ihLeft ihTail =>
      intro lead
      have hoperand := ihLeft hsound lead
      have htail :=
        ihTail (hsound.of_subset hleft.subset) _ (hleft.faithful hsound)
      have hlevel :=
        @wrapCost_level_mono (ofNode left) _ _ ((ofNode left).cost locals)
          (Nat.le_succ tier.level)
      unfold Bounds at hoperand ⊢
      exact htail.trans ((Nat.add_le_add_right hlevel _).trans hoperand)
  | operandSum _ ih => exact ih hsound
  | operandProduct _ ih => exact fun lead => (ih hsound lead).bare
  | tailEnd _ => exact fun _ _ => Nat.le_refl _
  | tailOperator hop htier hright _ ihRight ihTail =>
      intro before hleft
      subst htier
      have htail := ihTail (hsound.tail.of_subset hright.subset) before
        (hleft.binary (hright.faithful hsound.tail))
      exact htail.trans (bounds_binary hop hleft (ihRight hsound.tail _))
  | negativeLiteral hminus hnode =>
      exact fun _ => boundsOperand_negated hminus hnode
  | negation hminus hoperand _ ih =>
      exact fun lead =>
        bounds_negate hminus ((ih hsound.tail _).operand hoperand)
  | unsigned _ _ ih => exact ih hsound
  | literal hnode => exact fun _ => boundsOperand_literal hnode
  | name hname _ =>
      exact fun _ => boundsOperand_name hname (hsound.head.isName hname)
  | call hname hparen _ ih =>
      exact fun _ => boundsOperand_call hname hparen (hsound.head.isName hname)
        (ih hsound.tail.tail .other)
  | group hparen hitems ih =>
      have hinside := ih (hsound.tail.of_subset (skipSeparators_subset _))
      exact fun _ => boundsOperand_group hparen hitems (hinside .other) _
  | itemsEnd hclose =>
      intro lead
      unfold Bounds
      rw [List.map_cons, hclose, weigh_rightParen]
      exact Nat.le_of_eq (Nat.zero_add _)
  | itemsLast _ hclose _ ih =>
      intro lead
      have hitem := ih hsound lead
      unfold Bounds at hitem ⊢
      rw [List.map_cons, hclose, weigh_rightParen] at hitem
      exact hitem
  | itemsMore _ hmark hitem _ ihItem ihItems =>
      intro lead
      have hrest := (hsound.of_subset hitem.subset).tail
      have hothers :=
        ihItems (hrest.of_subset (Bracket.skip_subset _ _)) .other
      exact bounds_cons hmark (hitem.faithful hsound)
        (ihItem hsound lead) hothers

/-- The statements of a program cost no more than its tokens weigh. -/
theorem DerivesProgram.cost_le {ctx : Context} {locals locals' : List String}
    {ts : List Token} {nodes : List Node} {cost : Nat}
    (hderives : DerivesProgram ctx locals ts nodes locals' cost)
    (hsound : AllSound ts) :
    Bounds .other ts [] (costList locals (nodes.map ofNode)) := by
  induction hderives with
  | nil => exact Nat.le_refl _
  | last hstatement =>
      have hbound := hstatement.outweighs hsound .other
      exact hbound
  | more hmark hstatement _ ih =>
      have hrest := (hsound.of_subset hstatement.subset).tail
      have hothers := ih (hrest.of_subset (skipSeparators_subset _))
      exact @bounds_cons _ _ _ _ _ _ _ .group _ _ hmark
        (hstatement.faithful hsound)
        (hstatement.outweighs hsound .other) hothers

/-- The statements that are printed are those that were read, or a group of
them that stood alone. -/
theorem costList_programOf_le (nodes : List Node) :
    costList [] (programOf (collapse? nodes)) ≤
      costList [] (nodes.map ofNode) := by
  match nodes with
  | [] => exact Nat.le_refl _
  | [node] =>
      change costList [] (programOf (some node)) ≤ costList [] [ofNode node]
      unfold programOf
      dsimp only
      split
      · next first second others heq =>
          have hcost : costList [] [ofNode node] =
              1 + costList [] (first :: second :: others) + 0 := by
            rw [heq]
            rfl
          omega
      · exact Nat.le_refl _
  | first :: second :: others =>
      have hnode := @ofNode_begin (first :: second :: others)
        (covering first ((second :: others).getLast (List.cons_ne_nil _ _)))
      change costList [] (programOf (some (.mk "begin" _ _))) ≤ _
      unfold programOf
      dsimp only
      rw [hnode]
      exact Nat.le_refl _

end Reparse.Toy
