import Reparse.Proofs.Toy.Reading

/-!
# What the parser reads

`Derives` relates tokens to what they read as, one rule for each shape of the
language, together with the least budget that the reading needs.  The readers
are exact for it: under a budget that covers the cost they return what is
derived, under a smaller one they report too deep a nesting, and whatever they
return is derived.
-/

namespace Reparse.Toy

open Text Reader

/-- The tokens read as a form, from the names assigned before to those assigned
after, with the tokens left and the levels opened. -/
inductive Derives (ctx : Context) : (form : Form) → List String → List Token →
    form.Result → List String → List Token → Nat → Prop where
  | assignment {t mark : Token} {name : String} {locals locals' : List String}
      {ts rest : List Token} {value : Node} {cost : Nat}
      (hname : t.kind = .ident name) (hmark : mark.kind = .assign)
      (hvalue : Derives ctx .statement (name :: locals) ts value locals'
        rest cost) :
      Derives ctx .statement locals (t :: mark :: ts)
        (.mk "lvasgn" [symbol name, .node value]
          (some (t.spanTo (stopOf value))))
        locals' rest (cost + 1)
  | expression {locals locals' : List String} {ts rest : List Token}
      {node : Node} {cost : Nat} (hplain : ¬ IsAssignment ts)
      (hchain : Derives ctx (.chain .sum) locals ts node locals' rest cost) :
      Derives ctx .statement locals ts node locals' rest (cost + 1)
  | chain {tier : Tier} {locals locals' locals'' : List String}
      {ts rest rest' : List Token} {left node : Node} {cost cost' : Nat}
      (hleft : Derives ctx (.operand tier) locals ts left locals' rest cost)
      (htail : Derives ctx (.tail tier left) locals' rest node locals''
        rest' cost') :
      Derives ctx (.chain tier) locals ts node locals'' rest' (max cost cost')
  | operandSum {locals locals' : List String} {ts rest : List Token}
      {node : Node} {cost : Nat}
      (hchain :
        Derives ctx (.chain .product) locals ts node locals' rest cost) :
      Derives ctx (.operand .sum) locals ts node locals' rest cost
  | operandProduct {locals locals' : List String} {ts rest : List Token}
      {node : Node} {cost : Nat}
      (hunary : Derives ctx .unary locals ts node locals' rest cost) :
      Derives ctx (.operand .product) locals ts node locals' rest cost
  | tailEnd {tier : Tier} {left : Node} {locals : List String}
      {ts : List Token} (hstop : ¬ Continues tier ts) :
      Derives ctx (.tail tier left) locals ts left locals ts 0
  | tailOperator {tier : Tier} {left right node : Node} {t : Token}
      {op : Operator} {locals locals' locals'' : List String}
      {ts rest rest' : List Token} {cost cost' : Nat}
      (hop : Operator.ofToken? t.kind = some op) (htier : op.tier = tier)
      (hright : Derives ctx (.operand tier) locals ts right locals' rest cost)
      (htail : Derives ctx (.tail tier (binary left op right)) locals' rest
        node locals'' rest' cost') :
      Derives ctx (.tail tier left) locals (t :: ts) node locals'' rest'
        (max cost cost' + 1)
  | negativeLiteral {minus t : Token} {node : Node} {locals : List String}
      {rest : List Token} (hminus : minus.kind = .minus)
      (hnode : negated? minus t = some node) :
      Derives ctx .unary locals (minus :: t :: rest) node locals rest 0
  | negation {minus : Token} {node : Node} {locals locals' : List String}
      {ts rest : List Token} {cost : Nat} (hminus : minus.kind = .minus)
      (hoperand : ∀ kind ∈ peek ts, ¬ IsNumber kind)
      (hunary : Derives ctx .unary locals ts node locals' rest cost) :
      Derives ctx .unary locals (minus :: ts)
        (.mk "send" [.node node, symbol negationSymbol]
          (some (minus.spanTo (stopOf node))))
        locals' rest (cost + 1)
  | unsigned {locals locals' : List String} {ts rest : List Token}
      {node : Node} {cost : Nat} (hpeek : peek ts ≠ some .minus)
      (hprimary : Derives ctx .primary locals ts node locals' rest cost) :
      Derives ctx .unary locals ts node locals' rest cost
  | literal {t : Token} {node : Node} {locals : List String}
      {rest : List Token} (hnode : literal? ctx t = some node) :
      Derives ctx .primary locals (t :: rest) node locals rest 0
  | name {t : Token} {name : String} {locals : List String} {rest : List Token}
      (hname : t.kind = .ident name) (hpeek : peek rest ≠ some .leftParen) :
      Derives ctx .primary locals (t :: rest) (nameNode locals name t.span)
        locals rest 0
  | call {t paren : Token} {name : String} {locals locals' : List String}
      {ts rest : List Token} {nodes : List Node} {stop : Nat} {cost : Nat}
      (hname : t.kind = .ident name) (hparen : paren.kind = .leftParen)
      (hitems : Derives ctx (.items .call) locals ts (nodes, stop) locals'
        rest cost) :
      Derives ctx .primary locals (t :: paren :: ts)
        (.mk "send" (.atom .nil :: symbol name :: nodes.map .node)
          (some (t.spanTo stop)))
        locals' rest cost
  | group {t : Token} {locals locals' : List String} {ts rest : List Token}
      {nodes : List Node} {stop : Nat} {cost : Nat}
      (hparen : t.kind = .leftParen)
      (hitems : Derives ctx (.items .group) locals (skipSeparators ts).val
        (nodes, stop) locals' rest cost) :
      Derives ctx .primary locals (t :: ts)
        ((collapse? nodes).getD (.mk "begin" [] (some (t.spanTo stop))))
          locals' rest cost
  | itemsEnd {bracket : Bracket} {t : Token} {locals : List String}
      {rest : List Token} (hclose : t.kind = .rightParen) :
      Derives ctx (.items bracket) locals (t :: rest) ([], t.stop)
        locals rest 0
  | itemsLast {bracket : Bracket} {t : Token} {locals locals' : List String}
      {ts rest : List Token} {node : Node} {cost : Nat}
      (hopen : peek ts ≠ some .rightParen) (hclose : t.kind = .rightParen)
      (hitem :
        Derives ctx .statement locals ts node locals' (t :: rest) cost) :
      Derives ctx (.items bracket) locals ts ([node], t.stop) locals' rest cost
  | itemsMore {bracket : Bracket} {t : Token}
      {locals locals' locals'' : List String} {ts rest rest' : List Token}
      {node : Node} {nodes : List Node} {stop cost cost' : Nat}
      (hopen : peek ts ≠ some .rightParen) (hmark : t.kind = bracket.mark)
      (hitem : Derives ctx .statement locals ts node locals' (t :: rest) cost)
      (hitems : Derives ctx (.items bracket) locals' (bracket.skip rest)
        (nodes, stop) locals'' rest' cost') :
      Derives ctx (.items bracket) locals ts (node :: nodes, stop) locals''
        rest' (max cost cost')

/-! ## The readers return what is derived -/

theorem Bracket.mark_ne_rightParen (bracket : Bracket) :
    bracket.mark ≠ .rightParen := by
  cases bracket <;> simp [Bracket.mark]

/-- A reader settles at the cost of a derivation, with what is derived. -/
theorem Derives.settles {ctx : Context} {form : Form}
    {locals locals' : List String} {ts rest : List Token}
    {result : form.Result} {cost : Nat}
    (hderives : Derives ctx form locals ts result locals' rest cost) :
    (form.read ctx locals ts).Settles cost (result, locals', rest) := by
  induction hderives with
  | assignment hname hmark _ ih =>
      rw [read_assignment hname hmark]
      refine Settles.descend ?_ (ctx.faultAt_cause _ _)
      exact ih.andThen_done rfl
  | expression hplain _ ih =>
      rw [read_expression hplain]
      exact ih.descend (ctx.faultAt_cause _ _)
  | chain _ _ ihLeft ihTail =>
      rw [read_chain]
      exact ihLeft.andThen ihTail
  | operandSum _ ih =>
      rw [read_operand_sum]
      exact ih
  | operandProduct _ ih =>
      rw [read_operand_product]
      exact ih
  | tailEnd hstop =>
      rw [read_tail_end hstop]
      exact settles_done _
  | tailOperator hop htier _ _ ihRight ihTail =>
      -- One level covers the operand and all that follows it: the reader gives
      -- it back at the end.
      rw [read_tail_operator hop htier]
      exact (ihRight.andThen ihTail).descend (ctx.faultAt_cause _ _)
  | negativeLiteral hminus hnode =>
      rw [read_negative_literal hminus hnode]
      exact settles_done _
  | negation hminus hoperand _ ih =>
      rw [read_negation hminus hoperand]
      refine Settles.descend ?_ (ctx.faultAt_cause _ _)
      exact ih.andThen_done rfl
  | unsigned hpeek _ ih =>
      rw [read_unary_primary hpeek]
      exact ih
  | literal hnode =>
      rw [read_literal hnode]
      exact settles_done _
  | name hname hpeek =>
      rw [read_name hname hpeek]
      exact settles_done _
  | call hname hparen _ ih =>
      rw [read_call hname hparen]
      exact ih.andThen_done rfl
  | group hparen _ ih =>
      rw [read_group hparen]
      exact ih.andThen_done rfl
  | itemsEnd hclose =>
      rw [read_items_end hclose]
      exact settles_done _
  | itemsLast hopen hclose _ ih =>
      rw [read_items_item hopen]
      exact ih.andThen_done (by simp only [afterItem, hclose, if_true])
  | @itemsMore bracket t _ _ _ _ _ _ _ _ _ _ _ hopen hmark _ _ ihItem
        ihItems =>
      rw [read_items_item hopen]
      refine ihItem.andThen ?_
      simp only [afterItem, hmark, bracket.mark_ne_rightParen, if_false,
        if_true]
      exact ihItems.andThen_done rfl

/-! ## What the readers return is derived -/

theorem descend_eq_ok {α : Type} {fault : Fault} {read : Reader α}
    {budget : Nat} {a : α} (hread : descend fault read budget = .ok a) :
    ∃ less, budget = less + 1 ∧ read less = .ok a := by
  cases budget with
  | zero => cases hread
  | succ less => exact ⟨less, rfl, hread⟩

theorem andThen_eq_ok {α β : Type} {read : Reader α} {next : α → Reader β}
    {budget : Nat} {b : β} (hread : read.andThen next budget = .ok b) :
    ∃ a, read budget = .ok a ∧ next a budget = .ok b := by
  unfold Reader.andThen at hread
  cases hfirst : read budget with
  | error fault =>
      rw [hfirst] at hread
      cases hread
  | ok a =>
      rw [hfirst] at hread
      exact ⟨a, rfl, hread⟩

theorem property_of_plain {P : List Token → Prop} {α : Type}
    {result : Except Fault (α × List String × { rest : List Token // P rest })}
    {out : α × List String × List Token}
    (hresult : result.map plain = .ok out) :
    P out.2.2 := by
  cases result with
  | error fault => cases hresult
  | ok found =>
      cases hresult
      exact found.2.2.property

theorem property_of_plainList {ts : List Token}
    {result : Except Fault (ParsedList ts)}
    {out : (List Node × Nat) × List String × List Token}
    (hresult : result.map plainList = .ok out) :
    out.2.2.length < ts.length := by
  cases result with
  | error fault => cases hresult
  | ok found =>
      cases hresult
      exact found.2.2.2.property

/-- Every form but a tail takes a token at least. -/
theorem Form.length_lt_of_read {ctx : Context} {form : Form}
    {locals : List String} {ts : List Token} {budget : Nat} {out : form.Output}
    (hform : ∀ tier left, form ≠ .tail tier left)
    (hread : form.read ctx locals ts budget = .ok out) :
    out.2.2.length < ts.length := by
  cases form with
  | statement => exact property_of_plain hread
  | chain tier => exact property_of_plain hread
  | operand tier => exact property_of_plain hread
  | tail tier left => exact absurd rfl (hform tier left)
  | unary => exact property_of_plain hread
  | primary => exact property_of_plain hread
  | items bracket =>
      cases bracket with
      | group => exact property_of_plainList hread
      | call => exact property_of_plainList hread

theorem Bracket.length_skip_le (bracket : Bracket) (ts : List Token) :
    (bracket.skip ts).length ≤ ts.length := by
  cases bracket with
  | group => exact (skipSeparators ts).property
  | call => exact Nat.le_refl _

theorem afterItem_eq_ok {ctx : Context} {bracket : Bracket} {node : Node}
    {locals : List String} {ts : List Token} {budget : Nat}
    {out : (Form.items bracket).Output}
    (hafter : afterItem ctx bracket (node, locals, ts) budget = .ok out) :
    ∃ t rest, ts = t :: rest ∧
      ((t.kind = .rightParen ∧ out = (([node], t.stop), locals, rest)) ∨
        (t.kind = bracket.mark ∧ ∃ more,
          (Form.items bracket).read ctx locals (bracket.skip rest) budget =
            .ok more ∧
            out = ((node :: more.1.1, more.1.2), more.2))) := by
  cases ts with
  | nil => cases hafter
  | cons t rest =>
      refine ⟨t, rest, rfl, ?_⟩
      simp only [afterItem] at hafter
      split at hafter
      · next hclose =>
          cases hafter
          exact .inl ⟨hclose, rfl⟩
      · split at hafter
        · next hmark =>
            obtain ⟨more, hmore, hdone⟩ := andThen_eq_ok hafter
            cases hdone
            exact .inr ⟨hmark, more, hmore, rfl⟩
        · cases hafter

section Sound

variable {ctx : Context}

/-- Some derivation within the budget yields the output. -/
def Derivable (ctx : Context) (form : Form) (locals : List String)
    (ts : List Token) (budget : Nat) (out : form.Output) : Prop :=
  ∃ cost ≤ budget, Derives ctx form locals ts out.1 out.2.1 out.2.2 cost

mutual

theorem derivable_statement {locals : List String} {ts : List Token}
    {budget : Nat} {out : Form.statement.Output}
    (hread : Form.statement.read ctx locals ts budget = .ok out) :
    Derivable ctx .statement locals ts budget out := by
  by_cases hassign : IsAssignment ts
  · obtain ⟨t, mark, rest, name, hts, hname, hmark⟩ := hassign.shape
    rw [hts, read_assignment hname hmark] at hread
    obtain ⟨less, hless, hread⟩ := descend_eq_ok hread
    obtain ⟨value, hvalue, hdone⟩ := andThen_eq_ok hread
    cases hdone
    have hlength : rest.length < ts.length := by
      simp only [hts, List.length_cons]
      omega
    obtain ⟨cost, hcost, hderives⟩ := derivable_statement hvalue
    rw [hts]
    exact ⟨cost + 1, by omega, .assignment hname hmark hderives⟩
  · rw [read_expression hassign] at hread
    obtain ⟨less, hless, hread⟩ := descend_eq_ok hread
    obtain ⟨cost, hcost, hderives⟩ := derivable_chain hread
    exact ⟨cost + 1, by omega, .expression hassign hderives⟩
termination_by 8 * ts.length + 6
decreasing_by
  · omega
  · simp only [Tier.rank]
    omega

theorem derivable_chain {tier : Tier} {locals : List String} {ts : List Token}
    {budget : Nat} {out : (Form.chain tier).Output}
    (hread : (Form.chain tier).read ctx locals ts budget = .ok out) :
    Derivable ctx (.chain tier) locals ts budget out := by
  rw [read_chain] at hread
  obtain ⟨left, hleft, htail⟩ := andThen_eq_ok hread
  have hlength := Form.length_lt_of_read (by simp) hleft
  obtain ⟨cost, hcost, hderives⟩ := derivable_operand hleft
  obtain ⟨cost', hcost', hderives'⟩ := derivable_tail htail
  exact ⟨max cost cost', by omega, .chain hderives hderives'⟩
termination_by 8 * ts.length + tier.rank
decreasing_by
  · cases tier <;> simp only [Tier.rank] <;> omega
  · omega

theorem derivable_operand :
    ∀ {tier : Tier} {locals : List String} {ts : List Token} {budget : Nat}
    {out : (Form.operand tier).Output},
    (Form.operand tier).read ctx locals ts budget = .ok out →
      Derivable ctx (.operand tier) locals ts budget out
  | .sum, _, _, _, _, hread => by
      rw [read_operand_sum] at hread
      obtain ⟨cost, hcost, hderives⟩ := derivable_chain hread
      exact ⟨cost, hcost, .operandSum hderives⟩
  | .product, _, _, _, _, hread => by
      rw [read_operand_product] at hread
      obtain ⟨cost, hcost, hderives⟩ := derivable_unary hread
      exact ⟨cost, hcost, .operandProduct hderives⟩
termination_by tier _ ts => 8 * ts.length + (tier.rank - 1)
decreasing_by
  · simp only [Tier.rank]
    omega
  · simp only [Tier.rank]
    omega

theorem derivable_tail {tier : Tier} {left : Node} {locals : List String}
    {ts : List Token} {budget : Nat} {out : (Form.tail tier left).Output}
    (hread : (Form.tail tier left).read ctx locals ts budget = .ok out) :
    Derivable ctx (.tail tier left) locals ts budget out := by
  by_cases hcontinues : Continues tier ts
  · obtain ⟨t, rest, op, hts, hop, htier⟩ := hcontinues.shape
    rw [hts, read_tail_operator hop htier] at hread
    obtain ⟨less, hless, hread⟩ := descend_eq_ok hread
    obtain ⟨right, hright, htail⟩ := andThen_eq_ok hread
    have hshorter : rest.length < ts.length := by simp [hts]
    have hlength := Form.length_lt_of_read (by simp) hright
    obtain ⟨cost, hcost, hderives⟩ := derivable_operand hright
    obtain ⟨cost', hcost', hderives'⟩ := derivable_tail htail
    rw [hts]
    exact ⟨max cost cost' + 1, by omega,
      .tailOperator hop htier hderives hderives'⟩
  · rw [read_tail_end hcontinues] at hread
    cases hread
    exact ⟨0, Nat.zero_le _, .tailEnd hcontinues⟩
termination_by 8 * ts.length
decreasing_by
  · cases tier <;> simp only [Tier.rank] <;> omega
  · omega

theorem derivable_unary {locals : List String} {ts : List Token} {budget : Nat}
    {out : Form.unary.Output}
    (hread : Form.unary.read ctx locals ts budget = .ok out) :
    Derivable ctx .unary locals ts budget out := by
  by_cases hminus : peek ts = some .minus
  · obtain ⟨minus, rest, hts, hkind⟩ := exists_of_peek_eq hminus
    have hshorter : rest.length < ts.length := by simp [hts]
    by_cases hnumber : ∃ kind ∈ peek rest, IsNumber kind
    · obtain ⟨kind, hpeek, hkind'⟩ := hnumber
      obtain ⟨t, rest', hrest, rfl⟩ := exists_of_peek_eq hpeek
      obtain ⟨node, hnode⟩ : ∃ node, negated? minus t = some node := by
        refine Option.ne_none_iff_exists'.mp fun hnone => ?_
        exact negated?_eq_none_iff.mp hnone hkind'
      rw [hts, hrest, read_negative_literal hkind hnode] at hread
      cases hread
      rw [hts, hrest]
      exact ⟨0, Nat.zero_le _, .negativeLiteral hkind hnode⟩
    · have hoperand : ∀ kind ∈ peek rest, ¬ IsNumber kind :=
        fun kind hpeek hkind' => hnumber ⟨kind, hpeek, hkind'⟩
      rw [hts, read_negation hkind hoperand] at hread
      obtain ⟨less, hless, hread⟩ := descend_eq_ok hread
      obtain ⟨node, hnode, hdone⟩ := andThen_eq_ok hread
      cases hdone
      obtain ⟨cost, hcost, hderives⟩ := derivable_unary hnode
      rw [hts]
      exact ⟨cost + 1, by omega, .negation hkind hoperand hderives⟩
  · rw [read_unary_primary hminus] at hread
    obtain ⟨cost, hcost, hderives⟩ := derivable_primary hread
    exact ⟨cost, hcost, .unsigned hminus hderives⟩
termination_by 8 * ts.length + 1
decreasing_by
  · omega
  · omega

theorem derivable_primary {locals : List String} {ts : List Token}
    {budget : Nat} {out : Form.primary.Output}
    (hread : Form.primary.read ctx locals ts budget = .ok out) :
    Derivable ctx .primary locals ts budget out := by
  obtain ⟨t, rest, hts, hfront⟩ := front_of_read_primary hread
  have hshorter : rest.length < ts.length := by simp [hts]
  rw [hts] at hread ⊢
  rcases hfront with ⟨node, hnode⟩ | ⟨name, hname⟩ | hparen
  · rw [read_literal hnode] at hread
    cases hread
    exact ⟨0, Nat.zero_le _, .literal hnode⟩
  · by_cases hpeek : peek rest = some .leftParen
    · obtain ⟨paren, rest', hrest, hparen⟩ := exists_of_peek_eq hpeek
      have hshorter' : rest'.length < rest.length := by simp [hrest]
      rw [hrest, read_call hname hparen] at hread
      obtain ⟨items, hitems, hdone⟩ := andThen_eq_ok hread
      cases hdone
      obtain ⟨cost, hcost, hderives⟩ := derivable_items hitems
      rw [hrest]
      exact ⟨cost, hcost, .call hname hparen hderives⟩
    · rw [read_name hname hpeek] at hread
      cases hread
      exact ⟨0, Nat.zero_le _, .name hname hpeek⟩
  · rw [read_group hparen] at hread
    obtain ⟨items, hitems, hdone⟩ := andThen_eq_ok hread
    cases hdone
    have hskip := (skipSeparators rest).property
    obtain ⟨cost, hcost, hderives⟩ := derivable_items hitems
    exact ⟨cost, hcost, .group hparen hderives⟩
termination_by 8 * ts.length
decreasing_by
  · omega
  · omega

theorem derivable_items {bracket : Bracket} {locals : List String}
    {ts : List Token} {budget : Nat} {out : (Form.items bracket).Output}
    (hread : (Form.items bracket).read ctx locals ts budget = .ok out) :
    Derivable ctx (.items bracket) locals ts budget out := by
  by_cases hopen : peek ts = some .rightParen
  · obtain ⟨t, rest, hts, hclose⟩ := exists_of_peek_eq hopen
    rw [hts, read_items_end hclose] at hread
    cases hread
    rw [hts]
    exact ⟨0, Nat.zero_le _, .itemsEnd hclose⟩
  · rw [read_items_item hopen] at hread
    obtain ⟨⟨node, locals', after⟩, hitem, hafter⟩ := andThen_eq_ok hread
    have hlength : after.length < ts.length :=
      Form.length_lt_of_read (by simp) hitem
    obtain ⟨cost, hcost, hderives⟩ := derivable_statement hitem
    obtain ⟨t, rest, rfl, ⟨hclose, rfl⟩ | ⟨hmark, items, hitems, rfl⟩⟩ :=
      afterItem_eq_ok hafter
    · exact ⟨cost, hcost, .itemsLast hopen hclose hderives⟩
    · have hshorter : (bracket.skip rest).length < ts.length := by
        have hskip := bracket.length_skip_le rest
        rw [List.length_cons] at hlength
        omega
      obtain ⟨cost', hcost', hderives'⟩ := derivable_items hitems
      exact ⟨max cost cost', by omega,
        .itemsMore hopen hmark hderives hderives'⟩
termination_by 8 * ts.length + 7
decreasing_by
  · omega
  · omega

end

end Sound

/-! ## Programs -/

/-- The tokens read as the statements of a program. -/
inductive DerivesProgram (ctx : Context) :
    List String → List Token → List Node → List String → Nat → Prop where
  | nil {locals : List String} : DerivesProgram ctx locals [] [] locals 0
  | last {locals locals' : List String} {ts : List Token} {node : Node}
      {cost : Nat}
      (hstatement : Derives ctx .statement locals ts node locals' [] cost) :
      DerivesProgram ctx locals ts [node] locals' cost
  | more {t : Token} {locals locals' locals'' : List String}
      {ts rest : List Token} {node : Node} {nodes : List Node}
      {cost cost' : Nat} (hmark : t.kind = .separator)
      (hstatement : Derives ctx .statement locals ts node locals'
        (t :: rest) cost)
      (hnodes : DerivesProgram ctx locals' (skipSeparators rest).val nodes
        locals'' cost') :
      DerivesProgram ctx locals ts (node :: nodes) locals'' (max cost cost')

/-- Reads on after a statement of a program. -/
def afterStatement (ctx : Context) (out : Form.statement.Output) :
    Except Fault (List Node) :=
  match out.2.2 with
  | [] => .ok [out.1]
  | t :: rest =>
    if t.kind = .separator then
      (statements ctx out.2.1 (skipSeparators rest).val).map (out.1 :: ·)
    else .error (t.start.fault (.unexpectedToken (some t.kind)))

theorem statements_nil (ctx : Context) (locals : List String) :
    statements ctx locals [] = .ok [] := by
  rw [statements]
  rfl

theorem statements_eq_read {ctx : Context} {locals : List String}
    {ts : List Token} (hts : ts ≠ []) :
    statements ctx locals ts =
      Form.statement.read ctx locals ts maxNesting >>= afterStatement ctx := by
  rw [statements, if_neg (by simpa using hts)]
  simp only [Form.read]
  cases statement ctx maxNesting locals ts with
  | error fault => rfl
  | ok out =>
      obtain ⟨node, locals', rest, hrest⟩ := out
      cases rest with
      | nil => rfl
      | cons t rest =>
          simp only [List.isEmpty_cons, Bool.false_eq_true, if_false,
            Except.map, plain, bind, Except.bind, afterStatement]
          by_cases hmark : t.kind = .separator
          · simp only [take?, hmark, if_true, Rest.tail]
            cases statements ctx locals' (skipSeparators rest).val <;> rfl
          · simp [take?, hmark, Context.faultAt, peek]

theorem Derives.ne_nil {ctx : Context} {locals locals' : List String}
    {ts rest : List Token} {node : Node} {cost : Nat}
    (hderives : Derives ctx .statement locals ts node locals' rest cost) :
    ts ≠ [] := by
  have hread := (hderives.settles cost).1 (Nat.le_refl _)
  have hlength := Form.length_lt_of_read (by simp) hread
  exact List.ne_nil_of_length_pos (by omega)

/-- The statements of a program are read when the nesting limit covers the
cost, and rejected for the nesting limit otherwise. -/
theorem DerivesProgram.statements_eq {ctx : Context}
    {locals locals' : List String} {ts : List Token} {nodes : List Node}
    {cost : Nat} (hderives : DerivesProgram ctx locals ts nodes locals' cost) :
    (cost ≤ maxNesting → statements ctx locals ts = .ok nodes) ∧
      (maxNesting < cost → ∃ fault, statements ctx locals ts = .error fault ∧
        fault.cause = .nestingTooDeep) := by
  induction hderives with
  | nil =>
      constructor
      · intro _
        exact statements_nil ctx _
      · intro hlt
        exact absurd hlt (Nat.not_lt_zero _)
  | last hstatement =>
      have hread := hstatement.settles maxNesting
      rw [statements_eq_read hstatement.ne_nil]
      constructor
      · intro hle
        rw [hread.1 hle]
        rfl
      · intro hlt
        obtain ⟨fault, hfault, hcause⟩ := hread.2 hlt
        exact ⟨fault, by rw [hfault]; rfl, hcause⟩
  | @more t locals locals' _ ts rest node nodes cost cost' hmark
        hstatement _ ih =>
      have hread := hstatement.settles maxNesting
      rw [statements_eq_read hstatement.ne_nil]
      have hafter : afterStatement ctx (node, locals', t :: rest) =
          (statements ctx locals' (skipSeparators rest).val).map
            (node :: ·) := by
        simp only [afterStatement, hmark, if_true]
      constructor
      · intro hle
        rw [hread.1 (by omega)]
        simp only [bind, Except.bind, hafter, ih.1 (by omega), Except.map]
      · intro hlt
        by_cases hfirst : maxNesting < cost
        · obtain ⟨fault, hfault, hcause⟩ := hread.2 hfirst
          exact ⟨fault, by rw [hfault]; rfl, hcause⟩
        · obtain ⟨fault, hfault, hcause⟩ := ih.2 (by omega)
          refine ⟨fault, ?_, hcause⟩
          rw [hread.1 (by omega)]
          simp only [bind, Except.bind, hafter, hfault, Except.map]

theorem derivesProgram_of_statements {ctx : Context} {locals : List String}
    {ts : List Token} {nodes : List Node}
    (hread : statements ctx locals ts = .ok nodes) :
    ∃ locals' cost, cost ≤ maxNesting ∧
      DerivesProgram ctx locals ts nodes locals' cost := by
  by_cases hts : ts = []
  · subst hts
    rw [statements_nil] at hread
    cases hread
    exact ⟨locals, 0, Nat.zero_le _, .nil⟩
  · rw [statements_eq_read hts] at hread
    cases hfirst : Form.statement.read ctx locals ts maxNesting with
    | error fault =>
        rw [hfirst] at hread
        cases hread
    | ok out =>
        rw [hfirst] at hread
        obtain ⟨node, locals', rest⟩ := out
        have hlength : rest.length < ts.length :=
          Form.length_lt_of_read (by simp) hfirst
        obtain ⟨cost, hcost, hderives⟩ := derivable_statement hfirst
        cases rest with
        | nil =>
            cases hread
            exact ⟨locals', cost, hcost, .last hderives⟩
        | cons t rest =>
            simp only [bind, Except.bind, afterStatement] at hread
            split at hread
            · next hmark =>
                have hshorter :
                    (skipSeparators rest).val.length < ts.length := by
                  have hskip := (skipSeparators rest).property
                  rw [List.length_cons] at hlength
                  omega
                cases hmore : statements ctx locals'
                  (skipSeparators rest).val with
                | error fault =>
                    rw [hmore] at hread
                    cases hread
                | ok more =>
                    rw [hmore] at hread
                    cases hread
                    obtain ⟨locals'', cost', hcost', hderives'⟩ :=
                      derivesProgram_of_statements hmore
                    exact ⟨locals'', max cost cost', by omega,
                      .more hmark hderives hderives'⟩
            · cases hread
termination_by ts.length

end Reparse.Toy
