import Reparse.Proofs.Binary64.Sign
import Reparse.Proofs.Toy.Grammar
import Reparse.Proofs.Toy.Words

/-!
# Printed words derive

Reading the words of an expression gives back what they mean and opens the
levels that `nesting` counts, whatever tokens follow as long as they do not
continue the expression.  A chain is read from its left end, so for chains the
statement is about reading on: what continues an operand continues the chain.
-/

namespace Reparse.Toy

/-- The least level at which a token still continues an expression in front of
it. -/
def TokenKind.binding : TokenKind → Nat
  | plus | minus => Tier.sum.level
  | star | slash => Tier.product.level
  | leftParen | assign => atomLevel + 1
  | _ => 0

/-- The tokens do not continue an expression that is read at a level. -/
def EndsAt (level : Nat) (ts : List Token) : Prop :=
  ∀ kind ∈ peek ts, kind.binding < level

theorem EndsAt.mono {level higher : Nat} {ts : List Token}
    (hends : EndsAt level ts) (hle : level ≤ higher) : EndsAt higher ts :=
  fun kind hkind => Nat.lt_of_lt_of_le (hends kind hkind) hle

theorem EndsAt.not_continues {tier : Tier} {ts : List Token}
    (hends : EndsAt tier.level ts) :
    ¬ Continues tier ts := by
  intro hcontinues
  obtain ⟨t, rest, op, rfl, hop, htier⟩ := hcontinues.shape
  have hlt := hends t.kind rfl
  subst htier
  revert hop hlt
  cases t.kind <;>
    simp only [Operator.ofToken?, reduceCtorEq, false_imp_iff] <;>
    rintro ⟨rfl⟩ <;> simp [TokenKind.binding, Operator.tier, Tier.level]

theorem EndsAt.peek_ne {level : Nat} {ts : List Token} {kind : TokenKind}
    (hends : EndsAt level ts) (hbinding : level ≤ kind.binding) :
    peek ts ≠ some kind :=
  fun hpeek => absurd (hends kind hpeek) (by omega)

theorem EndsAt.of_kind {level : Nat} {t : Token} {ts : List Token}
    {kind : TokenKind} (hkind : t.kind = kind)
    (hbinding : kind.binding < level) : EndsAt level (t :: ts) := by
  intro found hfound
  have hfound : found = kind := by simpa [peek, hkind] using hfound.symm
  rw [hfound]
  exact hbinding

theorem binding_token (op : Operator) : op.token.binding = op.tier.level := by
  cases op <;> rfl

/-! ## How words begin -/

/-- The token may begin an expression. -/
def TokenKind.opens : TokenKind → Bool
  | int _ | float _ | str _ | bytes _ | sym _ | ident _ | nil | bool _
  | leftParen | minus => true
  | _ => false

theorem exists_wrapWords_eq_cons (parens : Bool) {ks : List TokenKind}
    (hks : ∃ k more, ks = k :: more ∧ k.opens = true) :
    ∃ k more, Expr.wrapWords parens ks = k :: more ∧ k.opens = true := by
  cases parens with
  | false => exact hks
  | true => exact ⟨.leftParen, _, rfl, rfl⟩

namespace Expr

theorem exists_words_eq_cons : ∀ {e : Expr} (locals : List String), e.Native →
    ∃ k more, e.words locals = k :: more ∧ k.opens = true
  | int value, locals, _ => by
      unfold words
      split <;> exact ⟨_, _, rfl, rfl⟩
  | float value, locals, _ => by
      unfold words
      split <;> exact ⟨_, _, rfl, rfl⟩
  | str _, _, _ | bytes _, _, _ | sym _, _, _ | nil, _, _ | bool _, _, _
  | var _, _, _
  | assign _ _, _, _ | negate _, _, _ | call _ _, _, _ =>
      ⟨_, _, by rw [words], rfl⟩
  | sequence _, _, _ =>
      ⟨_, _, by rw [words, encloseWords], rfl⟩
  | infixed left op right, locals, hnative => by
      obtain ⟨k, more, hwords, hopens⟩ :=
        exists_wrapWords_eq_cons (left.level < op.tier.level)
          (exists_words_eq_cons (e := left) locals hnative.1)
      exact ⟨k, _, by rw [words, hwords]; rfl, hopens⟩
  | foreign _, _, hnative => hnative.elim

/-- Below the level of assignments no words can be taken for one. -/
theorem not_assignment_prefix :
    ∀ {e : Expr} (locals : List String) {more : List TokenKind},
    e.Native → e.level ≠ assignLevel → more.head? ≠ some .assign →
      ∀ name, ¬ [TokenKind.ident name, .assign] <+: e.words locals ++ more
  | int _, _, _, _, _, _ | float _, _, _, _, _, _ => by
      intro name hstarts
      unfold words at hstarts
      split at hstarts <;> simp at hstarts
  | str _, _, _, _, _, _ | bytes _, _, _, _, _, _ | sym _, _, _, _, _, _
  | nil, _, _, _, _, _
  | bool _, _, _, _, _, _ | negate _, _, _, _, _, _ => by simp [words]
  | sequence _, _, _, _, _, _ => by simp [words, encloseWords]
  | assign _ _, _, _, _, hlevel, _ => absurd rfl hlevel
  | foreign _, _, _, hnative, _, _ => hnative.elim
  | var _, _, more, _, _, hmore => by
      cases more with
      | nil => simp [words]
      | cons kind more =>
          intro other hstarts
          simp only [words, List.cons_append, List.nil_append,
            List.cons_prefix_cons] at hstarts
          exact hmore (by simp [hstarts.2.1])
  | call name args, locals, more, _, _, hmore => by
      intro other hstarts
      rw [words] at hstarts
      split at hstarts
      · cases more with
        | nil => simp at hstarts
        | cons kind more =>
            simp only [List.cons_append, List.nil_append,
              List.cons_prefix_cons] at hstarts
            exact hmore (by simp [hstarts.2.1])
      · simp [encloseWords] at hstarts
  | infixed left op right, locals, more, hnative, _, _ => by
      intro name
      rw [words, List.append_assoc]
      by_cases hparens : left.level < op.tier.level
      · simp [wrapWords, hparens, encloseWords]
      · have hleft : left.level ≠ assignLevel := by
          intro hlevel
          rw [hlevel] at hparens
          exact hparens
            (by cases op <;> simp [Operator.tier, Tier.level, assignLevel])
        rw [wrapWords, if_neg (by simpa using hparens)]
        exact not_assignment_prefix locals hnative.1 hleft
          (by cases op <;> simp [Operator.token])
          name

theorem not_isAssignment_words {e : Expr} {locals : List String}
    {toks rest : List Token} (hnative : e.Native)
    (hlevel : e.level ≠ assignLevel)
    (htoks : toks.map (·.kind) = e.words locals) (hends : EndsAt 1 rest) :
    ¬ IsAssignment (toks ++ rest) := by
  rintro ⟨name, hstarts⟩
  rw [List.map_append, htoks] at hstarts
  refine not_assignment_prefix locals hnative hlevel ?_ name hstarts
  rw [List.head?_map]
  have hassign : peek rest ≠ some .assign :=
    hends.peek_ne (by simp [TokenKind.binding])
  exact hassign

end Expr

/-! ## Readings -/

/-- What a form reads: names assigned, tokens, a node, names assigned then,
tokens left, levels. -/
abbrev Reading :=
  List String → List Token → Node → List String → List Token → Nat → Prop

/-- Tokens of these kinds read as a node, whatever follows that does not
continue at the level. -/
def Reads (reading : Reading) (level : Nat) (locals : List String)
    (kinds : List TokenKind) (target : Node) (locals' : List String)
    (cost : Nat) : Prop :=
  ∀ toks rest, toks.map (·.kind) = kinds → EndsAt level rest →
    ∃ node : Node, node.withoutSpans = target ∧
      reading locals (toks ++ rest) node locals' rest cost

section Readings

variable {ctx : Context} {locals locals' : List String}
variable {kinds : List TokenKind} {target : Node}
variable {level cost : Nat}

theorem peek_of_map_kind {toks rest : List Token} {k : TokenKind}
    {more : List TokenKind} (htoks : toks.map (·.kind) = k :: more) :
    peek (toks ++ rest) = some k := by
  obtain ⟨t, ts, rfl, hkind, -⟩ := List.map_eq_cons_iff.mp htoks
  simp [peek, hkind]

theorem skipSeparators_of_peek_ne {ts : List Token}
    (hpeek : peek ts ≠ some .separator) :
    (skipSeparators ts).val = ts := by
  cases ts with
  | nil => rfl
  | cons t ts =>
      have hkind : t.kind ≠ .separator :=
        fun hkind => hpeek (by simp [peek, hkind])
      simp [skipSeparators, Text.Suffix.dropWhile, isSeparator, hkind]

theorem Bracket.skip_of_peek_ne (bracket : Bracket) {ts : List Token}
    (hpeek : peek ts ≠ some .separator) : bracket.skip ts = ts := by
  cases bracket with
  | group => exact skipSeparators_of_peek_ne hpeek
  | call => rfl

theorem exists_of_map_encloseWords {toks : List Token}
    (htoks : toks.map (·.kind) = encloseWords kinds) :
    ∃ paren body close, toks = paren :: (body ++ [close]) ∧
      paren.kind = .leftParen ∧
      body.map (·.kind) = kinds ∧ close.kind = .rightParen := by
  obtain ⟨paren, inner, rfl, hparen, hinner⟩ := List.map_eq_cons_iff.mp htoks
  obtain ⟨body, last, rfl, hbody, hlast⟩ := List.map_eq_append_iff.mp hinner
  obtain ⟨close, rfl⟩ : ∃ close, last = [close] :=
    List.length_eq_one_iff.mp (by simpa using congrArg List.length hlast)
  exact ⟨paren, body, close, rfl, hparen, hbody, by simpa using hlast⟩

theorem ne_of_opens {k kind : TokenKind} (hopens : k.opens = true)
    (hkind : kind.opens = false) :
    some k ≠ some kind := by
  rintro ⟨rfl⟩
  rw [hopens] at hkind
  cases hkind

/-- A statement in parentheses is a primary expression. -/
theorem Reads.enclose
    (hreads : Reads (Derives ctx .statement) 1 locals kinds target
      locals' cost) (hkinds : ∃ k more, kinds = k :: more ∧ k.opens = true) :
    Reads (Derives ctx .primary) level locals (encloseWords kinds) target
      locals' cost := by
  intro toks rest htoks _
  obtain ⟨paren, body, close, rfl, hparen, hbody, hclose⟩ :=
    exists_of_map_encloseWords htoks
  obtain ⟨k, ks, rfl, hopens⟩ := hkinds
  have hpeek : peek (body ++ close :: rest) = some k := peek_of_map_kind hbody
  obtain ⟨node, hnode, hderives⟩ := hreads body (close :: rest) hbody
    (.of_kind hclose Nat.zero_lt_one)
  have hitems :
      Derives ctx (.items .group) locals (body ++ close :: rest)
        ([node], close.stop)
      locals' rest cost :=
    .itemsLast (hpeek ▸ ne_of_opens hopens rfl) hclose hderives
  have hskip :
      (skipSeparators (body ++ close :: rest)).val = body ++ close :: rest :=
    skipSeparators_of_peek_ne (hpeek ▸ ne_of_opens hopens rfl)
  refine ⟨node, hnode, ?_⟩
  rw [List.cons_append, List.append_assoc]
  exact .group hparen (hskip.symm ▸ hitems)

theorem Reads.unsigned
    (hreads : Reads (Derives ctx .primary) level locals kinds target
      locals' cost) (hkinds : kinds.head? ≠ some .minus) (hne : kinds ≠ []) :
    Reads (Derives ctx .unary) level locals kinds target locals' cost := by
  intro toks rest htoks hends
  obtain ⟨node, hnode, hderives⟩ := hreads toks rest htoks hends
  refine ⟨node, hnode, .unsigned ?_ hderives⟩
  obtain ⟨k, more, rfl⟩ := List.exists_cons_of_ne_nil hne
  rw [peek_of_map_kind htoks]
  exact hkinds

/-- Tokens of these kinds read as the left end of a chain: what reads on from
their node reads the chain, below the operators on their spine. -/
def ReadsChain (ctx : Context) (tier : Tier) (locals : List String)
    (kinds : List TokenKind) (target : Node) (locals' : List String)
    (nesting spine : Nat) : Prop :=
  ∀ toks rest, toks.map (·.kind) = kinds → EndsAt (tier.level + 1) rest →
    ∃ node : Node, node.withoutSpans = target ∧
      ∀ {result locals'' rest' cost},
        Derives ctx (.tail tier node) locals' rest result locals'' rest' cost →
        Derives ctx (.chain tier) locals (toks ++ rest) result locals'' rest'
          (max nesting (spine + cost))

theorem Reads.chain {tier : Tier}
    (hreads : Reads (Derives ctx (.operand tier)) (tier.level + 1) locals kinds
      target locals' cost) :
    ReadsChain ctx tier locals kinds target locals' cost 0 := by
  intro toks rest htoks hends
  obtain ⟨node, hnode, hderives⟩ := hreads toks rest htoks hends
  refine ⟨node, hnode, fun htail => ?_⟩
  rw [Nat.zero_add]
  exact .chain hderives htail

theorem ReadsChain.close {tier : Tier} {nesting spine : Nat}
    (hreads : ReadsChain ctx tier locals kinds target locals' nesting spine)
    (hspine : spine ≤ nesting) :
    Reads (Derives ctx (.chain tier)) tier.level locals kinds target locals'
      nesting := by
  intro toks rest htoks hends
  obtain ⟨node, hnode, hchain⟩ :=
    hreads toks rest htoks (hends.mono (Nat.le_succ _))
  have hderives := hchain (.tailEnd hends.not_continues)
  rw [Nat.add_zero, Nat.max_eq_left hspine] at hderives
  exact ⟨node, hnode, hderives⟩

theorem ReadsChain.infixed {op : Operator} {kinds' : List TokenKind}
    {target' : Node} {locals'' : List String} {nesting spine : Nat}
    (hleft : ReadsChain ctx op.tier locals kinds target locals' nesting spine)
    (hright : Reads (Derives ctx (.operand op.tier)) (op.tier.level + 1)
      locals' kinds' target' locals'' cost) :
    ReadsChain ctx op.tier locals (kinds ++ op.token :: kinds')
      (.bare "send" [.node target, symbol op.symbol, .node target']) locals''
      (max nesting (spine + 1 + cost)) (spine + 1) := by
  intro toks rest htoks hends
  obtain ⟨left, more, rfl, hkinds, hmore⟩ := List.map_eq_append_iff.mp htoks
  obtain ⟨t, right, rfl, hop, hkinds'⟩ := List.map_eq_cons_iff.mp hmore
  have hfollow : EndsAt (op.tier.level + 1) (t :: (right ++ rest)) :=
    .of_kind hop (by rw [binding_token]; exact Nat.lt_succ_self _)
  obtain ⟨leftNode, hleftNode, hchain⟩ := hleft left _ hkinds hfollow
  obtain ⟨rightNode, hrightNode, hderives⟩ := hright right rest hkinds' hends
  refine ⟨binary leftNode op rightNode, ?_, fun {_ _ _ cost'} htail => ?_⟩
  · simp [binary, Node.withoutSpans, Child.withoutSpansList,
      Child.withoutSpans, symbol, hleftNode, hrightNode, Node.bare]
  · have hread :=
      hchain (.tailOperator (by rw [hop, Operator.ofToken?_token]) rfl
        hderives htail)
    have hcost : max nesting (spine + (max cost cost' + 1)) =
        max (max nesting (spine + 1 + cost)) (spine + 1 + cost') := by omega
    rw [hcost] at hread
    simpa using hread

theorem Reads.operand_of_unary {tier : Tier}
    (hreads : Reads (Derives ctx .unary) unaryLevel locals kinds target
      locals' cost) :
    Reads (Derives ctx (.operand tier)) (tier.level + 1) locals kinds target
      locals' cost := by
  have hproduct :
      Reads (Derives ctx (.operand .product)) (Tier.product.level + 1)
        locals kinds
      target locals' cost := by
    intro toks rest htoks hends
    obtain ⟨node, hnode, hderives⟩ := hreads toks rest htoks hends
    exact ⟨node, hnode, .operandProduct hderives⟩
  cases tier with
  | product => exact hproduct
  | sum =>
      intro toks rest htoks hends
      obtain ⟨node, hnode, hderives⟩ :=
        hproduct.chain.close (Nat.zero_le _) toks rest htoks hends
      exact ⟨node, hnode, .operandSum hderives⟩

theorem Reads.statement {e : Expr}
    (hreads : Reads (Derives ctx (.chain .sum)) 1 locals (e.words locals)
      target locals' cost) (hnative : e.Native)
    (hlevel : e.level ≠ assignLevel) :
    Reads (Derives ctx .statement) 1 locals (e.words locals) target locals'
      (cost + 1) := by
  intro toks rest htoks hends
  obtain ⟨node, hnode, hderives⟩ := hreads toks rest htoks hends
  exact ⟨node, hnode,
    .expression (Expr.not_isAssignment_words hnative hlevel htoks hends)
      hderives⟩

end Readings

/-! ## Expressions -/

namespace Expr

/-- The words of an expression read as its meaning, at every level at or below
its own. -/
structure Readable (ctx : Context) (e : Expr) : Prop where
  unary : unaryLevel ≤ e.level → ∀ locals,
    Reads (Derives ctx .unary) unaryLevel locals (e.words locals)
      (e.resolve locals).toNode
      (e.assigned ++ locals) e.nesting
  chain : ∀ tier : Tier, tier.level ≤ e.level → ∀ locals,
    ReadsChain ctx tier locals (e.words locals) (e.resolve locals).toNode
      (e.assigned ++ locals) e.nesting (e.spine tier)
  statement : ∀ locals,
    Reads (Derives ctx .statement) 1 locals (e.words locals)
      (e.resolve locals).toNode
      (e.assigned ++ locals) (e.nesting + 1)

theorem spine_eq_zero {tier : Tier} {e : Expr}
    (hlevel : e.level ≠ tier.level) :
    e.spine tier = 0 := by
  cases e with
  | infixed left op right =>
      have htier : op.tier ≠ tier := fun h => hlevel (congrArg Tier.level h)
      simp [spine, htier]
  | _ => rfl

theorem spine_le_nesting (tier : Tier) (e : Expr) :
    e.spine tier ≤ e.nesting := by
  cases e with
  | infixed left op right =>
      rw [spine, nesting]
      split
      · next htier =>
          rw [htier]
          omega
      · exact Nat.zero_le _
  | _ => exact Nat.zero_le _

section Readable

variable {ctx : Context} {e left right : Expr}

theorem Readable.enclose (hreadable : e.Readable ctx) (hnative : e.Native)
    (locals : List String) :
    Reads (Derives ctx .unary) unaryLevel locals
      (encloseWords (e.words locals))
      (e.resolve locals).toNode (e.assigned ++ locals) (e.nesting + 1) :=
  ((hreadable.statement locals).enclose
    (exists_words_eq_cons locals hnative)).unsigned
    (by simp [encloseWords]) (by simp [encloseWords])

theorem Readable.operand (hreadable : e.Readable ctx) (hnative : e.Native)
    (tier : Tier) (locals : List String) :
    Reads (Derives ctx (.operand tier)) (tier.level + 1) locals
      (wrapWords (e.level < tier.level + 1) (e.words locals))
        (e.resolve locals).toNode
      (e.assigned ++ locals)
        (wrapNesting (e.level < tier.level + 1) e.nesting) := by
  by_cases hparens : e.level < tier.level + 1
  · simp only [wrapWords, wrapNesting, hparens, decide_true, if_true]
    exact (hreadable.enclose hnative locals).operand_of_unary
  · simp only [wrapWords, wrapNesting, hparens, decide_false,
      Bool.false_eq_true, if_false]
    cases tier with
    | product =>
        exact
          (hreadable.unary (Nat.le_of_not_lt hparens) locals).operand_of_unary
    | sum =>
        have hchain :=
          (hreadable.chain .product (Nat.le_of_not_lt hparens) locals).close
            (spine_le_nesting _ e)
        intro toks rest htoks hends
        obtain ⟨node, hnode, hderives⟩ := hchain toks rest htoks hends
        exact ⟨node, hnode, .operandSum hderives⟩

theorem Readable.leftOperand (hreadable : e.Readable ctx) (hnative : e.Native)
    (tier : Tier) (locals : List String) :
    ReadsChain ctx tier locals
      (wrapWords (e.level < tier.level) (e.words locals))
      (e.resolve locals).toNode (e.assigned ++ locals)
      (wrapNesting (e.level < tier.level) e.nesting) (e.spine tier) := by
  by_cases hparens : e.level < tier.level
  · rw [spine_eq_zero (Nat.ne_of_lt hparens)]
    simp only [wrapWords, wrapNesting, hparens, decide_true, if_true]
    exact (hreadable.enclose hnative locals).operand_of_unary.chain
  · simp only [wrapWords, wrapNesting, hparens, decide_false,
      Bool.false_eq_true, if_false]
    exact hreadable.chain tier (Nat.le_of_not_lt hparens) locals

/-- An expression that is read as a unary one is read as any. -/
theorem Readable.of_unary (hnative : e.Native) (hlevel : unaryLevel ≤ e.level)
    (hunary : ∀ locals,
      Reads (Derives ctx .unary) unaryLevel locals (e.words locals)
        (e.resolve locals).toNode (e.assigned ++ locals) e.nesting) :
    e.Readable ctx := by
  have hchain :
      ∀ (tier : Tier) locals, ReadsChain ctx tier locals (e.words locals)
      (e.resolve locals).toNode (e.assigned ++ locals) e.nesting
        (e.spine tier) := by
    intro tier locals
    have hne : e.level ≠ tier.level := by
      intro heq
      rw [heq] at hlevel
      cases tier <;> simp [unaryLevel, Tier.level] at hlevel
    rw [spine_eq_zero hne]
    exact (hunary locals).operand_of_unary.chain
  refine ⟨fun _ => hunary, fun tier _ => hchain tier, fun locals => ?_⟩
  refine ((hchain .sum locals).close (spine_le_nesting _ e)).statement
    hnative ?_
  intro heq
  rw [heq] at hlevel
  simp [unaryLevel, assignLevel] at hlevel

theorem readable_infixed {op : Operator} (hleft : left.Readable ctx)
    (hright : right.Readable ctx) (hnative : (infixed left op right).Native) :
    (infixed left op right).Readable ctx := by
  have hchain :
      ∀ locals,
        ReadsChain ctx op.tier locals ((infixed left op right).words locals)
      ((infixed left op right).resolve locals).toNode
      ((infixed left op right).assigned ++ locals)
        (infixed left op right).nesting
      ((infixed left op right).spine op.tier) := by
    intro locals
    have hread := (hleft.leftOperand hnative.1 op.tier locals).infixed
      (hright.operand hnative.2 op.tier (left.assigned ++ locals))
    simpa only [words, resolve, toNode, assigned, nesting, spine, if_true,
      List.append_assoc,
      symbol] using hread
  -- A chain of products is a single operand to a sum, so its operators do not
  -- count there.
  have hsum :
      ∀ locals,
        ReadsChain ctx .sum locals ((infixed left op right).words locals)
      ((infixed left op right).resolve locals).toNode
      ((infixed left op right).assigned ++ locals)
        (infixed left op right).nesting
      ((infixed left op right).spine .sum) := by
    intro locals
    cases htier : op.tier with
    | sum =>
        rw [← htier]
        exact hchain locals
    | product =>
        have hproduct := (hchain locals).close (spine_le_nesting _ _)
        rw [htier] at hproduct
        rw [spine_eq_zero (by simp [level, htier, Tier.level])]
        apply Reads.chain
        intro toks rest htoks hends
        obtain ⟨node, hnode, hderives⟩ := hproduct toks rest htoks hends
        exact ⟨node, hnode, .operandSum hderives⟩
  refine ⟨fun hle => ?_, fun tier hle locals => ?_, fun locals => ?_⟩
  · cases op <;> simp [level, Operator.tier, Tier.level, unaryLevel] at hle
  · by_cases htier : tier = op.tier
    · rw [htier]
      exact hchain locals
    · cases tier with
      | sum => exact hsum locals
      | product =>
          cases op <;> simp [level, Operator.tier, Tier.level] at hle htier
  · refine ((hsum locals).close (spine_le_nesting _ _)).statement hnative ?_
    cases op <;> simp [level, Operator.tier, Tier.level, assignLevel]

/-- A minus is printed before no number, which it would become part of. -/
theorem exists_operand_eq_cons (locals : List String) (hnative : e.Native) :
    ∃ k more, wrapWords e.needsParens (e.words locals) = k :: more ∧
      ¬ IsNumber k := by
  by_cases hparens : e.needsParens = true
  · exact ⟨.leftParen, _, if_pos hparens, id⟩
  · rw [wrapWords, if_neg hparens]
    cases e with
    | int value => simp [needsParens, isNumeral] at hparens
    | float value => simp [needsParens, isNumeral] at hparens
    | assign name value =>
        simp [needsParens, level, assignLevel, unaryLevel] at hparens
    | infixed left op right =>
        cases op <;>
          simp [needsParens, isNumeral, level, Operator.tier, Tier.level,
            unaryLevel] at hparens
    | foreign node => exact hnative.elim
    | _ => exact ⟨_, _, by simp only [words, encloseWords]; rfl, id⟩

theorem readable_negate (hreadable : e.Readable ctx) (hnative : e.Native) :
    (negate e).Readable ctx := by
  refine .of_unary hnative (Nat.le_refl _) fun locals => ?_
  have hoperand : Reads (Derives ctx .unary) unaryLevel locals
      (wrapWords e.needsParens (e.words locals)) (e.resolve locals).toNode
      (e.assigned ++ locals) (wrapNesting e.needsParens e.nesting) := by
    by_cases hparens : e.needsParens = true
    · simp only [wrapWords, wrapNesting, hparens, if_true]
      exact hreadable.enclose hnative locals
    · simp only [wrapWords, wrapNesting, hparens, Bool.false_eq_true, if_false]
      have hlevel : unaryLevel ≤ e.level := by
        simp only [needsParens, Bool.or_eq_true, decide_eq_true_eq,
          not_or] at hparens
        exact Nat.le_of_not_lt hparens.2
      exact hreadable.unary hlevel locals
  intro toks rest htoks hends
  rw [words] at htoks
  obtain ⟨minus, body, rfl, hminus, hbody⟩ := List.map_eq_cons_iff.mp htoks
  obtain ⟨node, hnode, hderives⟩ := hoperand body rest hbody hends
  refine ⟨_, ?_, .negation hminus ?_ hderives⟩
  · simp [Node.withoutSpans, Child.withoutSpansList, Child.withoutSpans,
      symbol, hnode, resolve, toNode, Node.bare]
  · obtain ⟨k, more, hwords, hnumber⟩ := exists_operand_eq_cons locals hnative
    have hpeek : peek (body ++ rest) = some k :=
      peek_of_map_kind (hbody.trans hwords)
    intro kind hkind
    obtain rfl : k = kind := Option.some.inj (hpeek.symm.trans hkind)
    exact hnumber

theorem readable_assign {name : String} (hreadable : e.Readable ctx) :
    (assign name e).Readable ctx := by
  refine ⟨fun hle => absurd hle (by simp [level, assignLevel, unaryLevel]),
    fun tier hle => ?_,
    fun locals toks rest htoks hends => ?_⟩
  · cases tier <;> simp [level, assignLevel, Tier.level] at hle
  · rw [words] at htoks
    obtain ⟨t, more, rfl, hname, hmore⟩ := List.map_eq_cons_iff.mp htoks
    obtain ⟨mark, body, rfl, hmark, hbody⟩ := List.map_eq_cons_iff.mp hmore
    obtain ⟨node, hnode, hderives⟩ :=
      hreadable.statement (name :: locals) body rest hbody hends
    rw [assigned, List.append_assoc]
    refine ⟨_, ?_, .assignment hname hmark hderives⟩
    simp [Node.withoutSpans, Child.withoutSpansList, Child.withoutSpans,
      symbol, hnode, resolve, toNode, Node.bare]

end Readable

/-! ## Lists -/

theorem toNodes_eq_map (es : List Expr) :
    toNodes es = (es.map toNode).map .node := by
  induction es with
  | nil => rfl
  | cons e es ih =>
      rw [toNodes, ih]
      rfl

theorem withoutSpansList_nodes (nodes : List Node) :
    Child.withoutSpansList (nodes.map .node) =
      (nodes.map Node.withoutSpans).map .node := by
  induction nodes with
  | nil => rfl
  | cons node nodes ih => simp [Child.withoutSpansList, Child.withoutSpans, ih]

theorem withoutSpans_collapse {nodes : List Node} {es : List Expr}
    (span : Option Span)
    (hnodes : nodes.map Node.withoutSpans = es.map toNode) :
    ((collapse? nodes).getD (.mk "begin" [] span)).withoutSpans =
      (group es).toNode := by
  match nodes, es, hnodes with
  | [], [], _ => rfl
  | [node], [e], hnodes => simpa [collapse?, group] using hnodes
  | [_], _ :: _ :: _, hnodes => simp at hnodes
  | _ :: _ :: _, [_], hnodes => simp at hnodes
  | first :: second :: more, e :: e' :: es, hnodes =>
      simp only [collapse?, Option.getD_some, Node.withoutSpans,
        withoutSpansList_nodes, hnodes, group, toNode, toNodes_eq_map]
      rfl

/-- The words of items, marked off from each other and closed, read as what the
items mean. -/
def ReadableList (ctx : Context) (es : List Expr) : Prop :=
  ∀ (bracket : Bracket) (locals : List String) (toks rest : List Token)
    (close : Token),
    toks.map (·.kind) = [bracket.mark].intercalate (wordsList locals es) →
    close.kind = .rightParen →
      ∃ nodes : List Node, nodes.map Node.withoutSpans =
        (resolveList locals es).map toNode ∧
        Derives ctx (.items bracket) locals (toks ++ close :: rest)
          (nodes, close.stop)
          (assignedList es ++ locals) rest (nestingList es)

section Lists

variable {ctx : Context} {e : Expr} {es : List Expr}

theorem readableList_nil : ReadableList ctx [] := by
  intro bracket locals toks rest close htoks hclose
  obtain rfl : toks = [] := by simpa [wordsList] using htoks
  exact ⟨[], rfl, .itemsEnd hclose⟩

theorem Readable.cons (hreadable : e.Readable ctx) (hnative : e.Native)
    (hlist : ReadableList ctx es) (hnatives : NativeList es) :
    ReadableList ctx (e :: es) := by
  intro bracket locals toks rest close htoks hclose
  obtain ⟨k, ks, hwords, hopens⟩ := exists_words_eq_cons locals hnative
  cases es with
  | nil =>
      rw [wordsList, wordsList, List.intercalate_singleton] at htoks
      obtain ⟨node, hnode, hderives⟩ :=
        hreadable.statement locals toks (close :: rest) htoks
          (.of_kind hclose Nat.zero_lt_one)
      have hpeek : peek (toks ++ close :: rest) = some k :=
        peek_of_map_kind (htoks.trans hwords)
      refine ⟨[node], by simp [resolveList, hnode], ?_⟩
      exact .itemsLast (hpeek ▸ ne_of_opens hopens rfl) hclose hderives
  | cons e' es =>
      obtain ⟨k', ks', hwords', hopens'⟩ :=
        exists_words_eq_cons (e.assigned ++ locals) hnatives.1
      rw [wordsList, wordsList, List.intercalate_cons_cons,
        List.append_assoc] at htoks
      obtain ⟨first, more, rfl, hfirst, hmore⟩ :=
        List.map_eq_append_iff.mp htoks
      rw [List.singleton_append] at hmore
      obtain ⟨mark, others, rfl, hmark, hothers⟩ :=
        List.map_eq_cons_iff.mp hmore
      have hmarkEnds : EndsAt 1 (mark :: (others ++ close :: rest)) := by
        refine .of_kind hmark ?_
        cases bracket <;> exact Nat.zero_lt_one
      obtain ⟨node, hnode, hderives⟩ :=
        hreadable.statement locals first _ hfirst hmarkEnds
      have hopen :
          peek (first ++ mark :: (others ++ close :: rest)) = some k :=
        peek_of_map_kind (hfirst.trans hwords)
      have hnext : peek (others ++ close :: rest) = some k' := by
        cases es with
        | nil =>
            rw [wordsList, List.intercalate_singleton] at hothers
            exact peek_of_map_kind (hothers.trans hwords')
        | cons e'' es =>
            rw [wordsList, List.intercalate_cons_cons, hwords'] at hothers
            exact peek_of_map_kind hothers
      obtain ⟨nodes, hnodes, hitems⟩ :=
        hlist bracket (e.assigned ++ locals) others rest close hothers hclose
      have hskip :
          bracket.skip (others ++ close :: rest) = others ++ close :: rest :=
        bracket.skip_of_peek_ne (hnext ▸ ne_of_opens hopens' rfl)
      refine ⟨node :: nodes, by simp [resolveList, hnode, hnodes], ?_⟩
      rw [List.append_assoc, List.cons_append, assignedList, List.append_assoc]
      exact .itemsMore (hopen ▸ ne_of_opens hopens rfl) hmark hderives
        (hskip.symm ▸ hitems)

/-! ## Leaves -/

theorem unaryLevel_le_atomLevel : unaryLevel ≤ atomLevel := by decide

theorem unaryLevel_le_int (value : Int64) :
    unaryLevel ≤ (int value).level := by
  simp only [level]
  split <;> decide

theorem unaryLevel_le_float (value : Binary64) :
    unaryLevel ≤ (float value).level := by
  simp only [level]
  split <;> decide

theorem reads_literal {kind : TokenKind} {target : Node} (locals : List String)
    (hkind : kind ≠ .minus)
    (hliteral : ∀ t : Token, t.kind = kind →
      (literal? ctx t).map Node.withoutSpans = some target) :
    Reads (Derives ctx .unary) unaryLevel locals [kind] target locals 0 := by
  refine Reads.unsigned ?_ (by simpa using hkind) (by simp)
  intro toks rest htoks _
  obtain ⟨t, more, rfl, ht, hmore⟩ := List.map_eq_cons_iff.mp htoks
  obtain rfl : more = [] := by simpa using hmore
  obtain ⟨node, hnode, htarget⟩ := Option.map_eq_some_iff.mp (hliteral t ht)
  exact ⟨node, htarget, .literal hnode⟩

theorem reads_negative {kind : TokenKind} {target : Node}
    (locals : List String)
    (hnegated : ∀ minus t : Token, t.kind = kind →
      (negated? minus t).map Node.withoutSpans = some target) :
    Reads (Derives ctx .unary) unaryLevel locals [.minus, kind] target
      locals 0 := by
  intro toks rest htoks _
  obtain ⟨minus, more, rfl, hminus, hmore⟩ := List.map_eq_cons_iff.mp htoks
  obtain ⟨t, more, rfl, ht, hmore⟩ := List.map_eq_cons_iff.mp hmore
  obtain rfl : more = [] := by simpa using hmore
  obtain ⟨node, hnode, htarget⟩ :=
    Option.map_eq_some_iff.mp (hnegated minus t ht)
  exact ⟨node, htarget, .negativeLiteral hminus hnode⟩

theorem reads_name (name : String) (locals : List String) :
    Reads (Derives ctx .unary) unaryLevel locals [.ident name]
      ((var name).resolve locals).toNode locals 0 := by
  refine Reads.unsigned ?_ (by simp) (by simp)
  intro toks rest htoks hends
  obtain ⟨t, more, rfl, ht, hmore⟩ := List.map_eq_cons_iff.mp htoks
  obtain rfl : more = [] := by simpa using hmore
  refine ⟨_, ?_, .name ht (hends.peek_ne ?_)⟩
  · unfold nameNode resolve
    split <;> rfl
  · simp [TokenKind.binding, unaryLevel, atomLevel]

theorem reads_call {args : List Expr} (hlist : ReadableList ctx args)
    (name : String) (locals : List String) :
    Reads (Derives ctx .unary) unaryLevel locals
      (.ident name :: encloseWords
        ([.comma].intercalate (wordsList locals args)))
      (call name (resolveList locals args)).toNode
        (assignedList args ++ locals)
      (nestingList args) := by
  refine Reads.unsigned ?_ (by simp) (by simp)
  intro toks rest htoks _
  obtain ⟨t, more, rfl, ht, hmore⟩ := List.map_eq_cons_iff.mp htoks
  obtain ⟨paren, body, close, rfl, hparen, hbody, hclose⟩ :=
    exists_of_map_encloseWords hmore
  obtain ⟨nodes, hnodes, hitems⟩ :=
    hlist .call locals body rest close hbody hclose
  refine ⟨.mk "send" (.atom .nil :: symbol name :: nodes.map .node)
    (some (t.spanTo close.stop)),
    ?_, ?_⟩
  · simp only [Node.withoutSpans, Child.withoutSpansList, Child.withoutSpans,
      symbol, withoutSpansList_nodes, hnodes, toNode, toNodes_eq_map]
    rfl
  · rw [List.cons_append, List.cons_append, List.append_assoc]
    exact .call ht hparen hitems

theorem reads_sequence {items : List Expr} (hlist : ReadableList ctx items)
    (hnative : NativeList items) (locals : List String) :
    Reads (Derives ctx .unary) unaryLevel locals
      (encloseWords ([.separator].intercalate (wordsList locals items)))
      (group (resolveList locals items)).toNode (assignedList items ++ locals)
      (nestingList items) := by
  refine Reads.unsigned ?_ (by simp [encloseWords]) (by simp [encloseWords])
  intro toks rest htoks _
  obtain ⟨paren, body, close, rfl, hparen, hbody, hclose⟩ :=
    exists_of_map_encloseWords htoks
  obtain ⟨nodes, hnodes, hitems⟩ :=
    hlist .group locals body rest close hbody hclose
  have hpeek : peek (body ++ close :: rest) ≠ some .separator := by
    cases items with
    | nil =>
        obtain rfl : body = [] := by simpa [wordsList] using hbody
        simp [peek, hclose]
    | cons e es =>
        obtain ⟨k, ks, hwords, hopens⟩ := exists_words_eq_cons locals hnative.1
        have hfirst : ∃ more, body.map (·.kind) = k :: more := by
          rw [hbody, wordsList, hwords]
          cases es with
          | nil => exact ⟨ks, List.intercalate_singleton⟩
          | cons e' es =>
              rw [wordsList, List.intercalate_cons_cons]
              exact ⟨_, rfl⟩
        obtain ⟨more, hmore⟩ := hfirst
        rw [peek_of_map_kind hmore]
        exact ne_of_opens hopens rfl
  have hskip :
      (skipSeparators (body ++ close :: rest)).val = body ++ close :: rest :=
    skipSeparators_of_peek_ne hpeek
  refine ⟨(collapse? nodes).getD
    (.mk "begin" [] (some (paren.spanTo close.stop))),
    withoutSpans_collapse _ hnodes, ?_⟩
  rw [List.cons_append, List.append_assoc]
  exact .group hparen (hskip.symm ▸ hitems)

end Lists

mutual

/-- Every native expression is read back from its words. -/
theorem readable (ctx : Context) : ∀ {e : Expr}, e.Native → e.Readable ctx
  | int value, hnative => by
      refine .of_unary hnative (unaryLevel_le_int value) fun locals => ?_
      by_cases hsign : value < 0
      · simp only [words, hsign, if_true]
        refine reads_negative locals fun minus t ht => ?_
        simp only [negated?, ht, Int64.neg_neg]
        rfl
      · simp only [words, hsign, if_false]
        exact reads_literal locals (by simp) fun t ht => by
          simp only [literal?, ht]
          rfl
  | float value, hnative => by
      refine .of_unary hnative (unaryLevel_le_float value) fun locals => ?_
      by_cases hsign : value.isNegative = true
      · simp only [words, hsign, if_true]
        refine reads_negative locals fun minus t ht => ?_
        simp only [negated?, ht, Binary64.neg_neg]
        rfl
      · simp only [words, hsign]
        exact reads_literal locals (by simp) fun t ht => by
          simp only [literal?, ht]
          rfl
  | str _, hnative | bytes _, hnative | sym _, hnative | nil, hnative
  | bool true, hnative | bool false, hnative => by
      refine .of_unary hnative unaryLevel_le_atomLevel fun locals => ?_
      exact reads_literal locals (by simp) fun t ht => by
        simp only [literal?, ht]
        rfl
  | var name, hnative =>
      .of_unary hnative unaryLevel_le_atomLevel (reads_name name)
  | assign name value, hnative =>
      readable_assign (readable ctx (e := value) hnative)
  | sequence items, hnative => .of_unary hnative unaryLevel_le_atomLevel
      (reads_sequence (readableList ctx hnative) hnative)
  | negate operand, hnative =>
      readable_negate (readable ctx (e := operand) hnative) hnative
  | infixed left op right, hnative =>
      readable_infixed (readable ctx hnative.1)
        (readable ctx hnative.2) hnative
  | call name args, hnative => by
      refine .of_unary hnative unaryLevel_le_atomLevel fun locals => ?_
      rw [words]
      split
      · next hbare =>
          obtain ⟨rfl, hlocal⟩ : args = [] ∧ name ∉ locals := by
            simpa using hbare
          have hname := @reads_name ctx name locals
          rw [resolve, if_neg hlocal] at hname
          exact hname
      · exact reads_call (readableList ctx hnative) name locals
  | foreign node, hnative => hnative.elim

theorem readableList (ctx : Context) :
    ∀ {es : List Expr}, NativeList es → ReadableList ctx es
  | [], _ => readableList_nil
  | _ :: _, hnative =>
      (readable ctx hnative.1).cons hnative.1 (readableList ctx hnative.2)
        hnative.2

end

end Expr
end Reparse.Toy
