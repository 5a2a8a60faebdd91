import Reparse.Proofs.Toy.Places
import Reparse.Proofs.Toy.Printed
import Reparse.Proofs.Toy.Scope
import Reparse.Proofs.Toy.Weights

/-!
# The cost of an expression

What an expression costs is what its words weigh, and it is defined without
them: a leaf costs what its token weighs, and every pair of parentheses that
precedence asks for costs one.  The parentheses around a negative number behind
a minus are free, as the minus can do without them.
-/

namespace Reparse.Toy
namespace Expr

/-- Whether the expression is a number that is written with a minus. -/
def isSigned : Expr → Bool
  | int value => value < 0
  | float value => value.isNegative
  | _ => false

def wrapCost (parens : Bool) (cost : Nat) : Nat :=
  if parens then cost + 1 else cost

mutual

/-- The cost of an expression after the names in `locals` have been
assigned. -/
def cost (locals : List String) : Expr → Nat
  | int value => if value < 0 then 2 else 1
  | float value => if value.isNegative then 5 else 4
  | str _ | bytes _ | sym _ | nil | bool _ | var _ => 1
  | assign name value => 1 + value.cost (name :: locals)
  | sequence items => 1 + costList locals items
  | negate operand =>
    1 + wrapCost (operand.needsParens && !operand.isSigned)
      (operand.cost locals)
  | infixed left op right =>
    wrapCost (left.level < op.tier.level) (left.cost locals) +
      (op.token.weight +
        wrapCost (right.level < op.tier.level + 1)
          (right.cost (left.assigned ++ locals)))
  | call name args =>
      1 + wrapCost (!(args.isEmpty && name ∉ locals)) (costList locals args)
  | foreign _ => 0

def costList (locals : List String) : List Expr → Nat
  | [] => 0
  | e :: es => e.cost locals + costList (e.assigned ++ locals) es

end

/-! ## Places cost nothing -/

section Places

theorem level_withoutSpans (e : Expr) : e.withoutSpans.level = e.level := by
  cases e <;> rfl

theorem needsParens_withoutSpans (e : Expr) :
    e.withoutSpans.needsParens = e.needsParens := by
  cases e <;> rfl

theorem isSigned_withoutSpans (e : Expr) :
    e.withoutSpans.isSigned = e.isSigned := by
  cases e <;> rfl

mutual

theorem assigned_withoutSpans :
    ∀ e : Expr, e.withoutSpans.assigned = e.assigned
  | assign name value =>
      by rw [withoutSpans, assigned, assigned, assigned_withoutSpans value]
  | sequence items => by
      rw [withoutSpans, assigned, assigned, assignedList_withoutSpans items]
  | negate operand =>
      by rw [withoutSpans, assigned, assigned, assigned_withoutSpans operand]
  | infixed left op right => by
      rw [withoutSpans, assigned, assigned, assigned_withoutSpans left,
        assigned_withoutSpans right]
  | call name args =>
      by rw [withoutSpans, assigned, assigned, assignedList_withoutSpans args]
  | int _ | float _ | str _ | bytes _ | sym _ | nil | bool _ | var _
  | foreign _ => rfl

theorem assignedList_withoutSpans : ∀ es : List Expr,
    assignedList (withoutSpansList es) = assignedList es
  | [] => rfl
  | e :: es => by
      rw [withoutSpansList, assignedList, assignedList,
        assigned_withoutSpans e,
        assignedList_withoutSpans es]

end

mutual

theorem cost_withoutSpans : ∀ (e : Expr) (locals : List String),
    e.withoutSpans.cost locals = e.cost locals
  | assign name value, locals =>
      by rw [withoutSpans, cost, cost, cost_withoutSpans value]
  | sequence items, locals =>
      by rw [withoutSpans, cost, cost, costList_withoutSpans items]
  | negate operand, locals => by
      rw [withoutSpans, cost, cost, needsParens_withoutSpans,
        isSigned_withoutSpans,
        cost_withoutSpans operand]
  | infixed left op right, locals => by
      rw [withoutSpans, cost, cost, level_withoutSpans, level_withoutSpans,
        assigned_withoutSpans left, cost_withoutSpans left,
        cost_withoutSpans right]
  | call name args, locals => by
      have hempty : (withoutSpansList args).isEmpty = args.isEmpty := by
        cases args <;> rfl
      rw [withoutSpans, cost, cost, hempty, costList_withoutSpans args]
  | int _, _ | float _, _ | str _, _ | bytes _, _ | sym _, _ | nil, _
  | bool _, _ | var _, _
  | foreign _, _ => rfl

theorem costList_withoutSpans : ∀ (es : List Expr) (locals : List String),
    costList locals (withoutSpansList es) = costList locals es
  | [], _ => rfl
  | e :: es, locals => by
      rw [withoutSpansList, costList, costList, assigned_withoutSpans e,
        cost_withoutSpans e,
        costList_withoutSpans es]

end

end Places

/-! ## Negative numbers in parentheses -/

theorem token_ne_rightParen (op : Operator) : op.token ≠ .rightParen := by
  cases op <;> decide

/-- If the words of an expression begin a number in parentheses, they are that
number. -/
theorem isSigned_of_closesSigned :
    ∀ {e : Expr} (locals : List String) {kind : TokenKind}
    {more : List TokenKind},
      e.Native → closesSigned (e.words locals ++ kind :: more) = true →
      e.isSigned = true ∧ kind = .rightParen
  | int value, locals, kind, more, _, hsigned => by
      rw [words] at hsigned
      split at hsigned
      · next hvalue =>
          obtain ⟨number, rest, -, hwords⟩ := closesSigned_iff.mp hsigned
          simp only [List.cons_append, List.nil_append, List.cons.injEq,
            true_and] at hwords
          exact ⟨decide_eq_true hvalue, hwords.2.1⟩
      · cases hsigned
  | float value, locals, kind, more, _, hsigned => by
      rw [words] at hsigned
      split at hsigned
      · next hvalue =>
          obtain ⟨number, rest, -, hwords⟩ := closesSigned_iff.mp hsigned
          simp only [List.cons_append, List.nil_append, List.cons.injEq,
            true_and] at hwords
          exact ⟨hvalue, hwords.2.1⟩
      · cases hsigned
  | negate operand, locals, _, _, hnative, hsigned => by
      obtain ⟨k, ks, hwords, hnumber⟩ :=
        exists_operand_eq_cons (e := operand) locals hnative
      rw [words, hwords] at hsigned
      obtain ⟨number, rest, hnumber', hwhole⟩ := closesSigned_iff.mp hsigned
      simp only [List.cons_append, List.cons.injEq, true_and] at hwhole
      exact absurd hnumber' (hwhole.1 ▸ hnumber)
  | infixed left op right, locals, _, _, hnative, hsigned => by
      rw [words, wrapWords] at hsigned
      split at hsigned
      · cases hsigned
      · rw [List.append_assoc] at hsigned
        have hoperator :=
          isSigned_of_closesSigned (e := left) locals hnative.1 hsigned
        exact absurd hoperator.2 (token_ne_rightParen op)
  | str _, _, _, _, _, hsigned | bytes _, _, _, _, _, hsigned
  | sym _, _, _, _, _, hsigned
  | nil, _, _, _, _, hsigned | bool _, _, _, _, _, hsigned
  | var _, _, _, _, _, hsigned
  | assign _ _, _, _, _, _, hsigned | sequence _, _, _, _, _, hsigned
  | call _ _, _, _, _, _, hsigned => by cases hsigned
  | foreign _, _, _, _, hnative, _ => hnative.elim

theorem level_of_isSigned {e : Expr} (hsigned : e.isSigned = true) :
    e.level = unaryLevel := by
  cases e with
  | int value =>
      have hvalue : value < 0 := of_decide_eq_true hsigned
      exact if_pos hvalue
  | float value => exact if_pos hsigned
  | _ => cases hsigned

theorem needsParens_of_isSigned {e : Expr} (hsigned : e.isSigned = true) :
    e.needsParens = true := by
  cases e with
  | int value | float value => rfl
  | _ => cases hsigned

/-! ## The weight of words -/

/-- Parentheses count behind an operand, where they are arguments, and not
behind the minus of a negative number. -/
structure IsSparing (spares : Lead → Bool) : Prop where
  operand : spares .operand = false
  negation : spares .negation = true

theorem isSparing_isNegation : IsSparing Lead.isNegation := ⟨rfl, rfl⟩

theorem isSparing_isMinus : IsSparing Lead.isMinus := ⟨rfl, rfl⟩

section Words

variable {spares : Lead → Bool} {lead : Lead} {locals : List String} {e : Expr}
variable {es : List Expr}
variable {kinds more : List TokenKind} {n : Nat}

/-- The words weigh that much wherever they stand, but for a place behind an
operand. -/
def Weighs (spares : Lead → Bool) (kinds : List TokenKind) (n : Nat) : Prop :=
  ∀ lead more, lead ≠ .operand →
    weigh spares lead (kinds ++ more) = n + weigh spares .operand more

theorem weigh_encloseWords (hspares : ¬ (spares lead = true ∧
      closesSigned (kinds ++ .rightParen :: more) = true)) :
    weigh spares lead (encloseWords kinds ++ more) =
      1 + weigh spares .other (kinds ++ .rightParen :: more) := by
  have hwords :
      encloseWords kinds ++ more =
        .leftParen :: (kinds ++ .rightParen :: more) := by
    simp [encloseWords]
  rw [hwords, weigh_paren hspares]

theorem Weighs.leaf {kind : TokenKind} (hkind : kind.endsOperand = true)
    (hweight : kind.weight = n) : Weighs spares [kind] n := by
  intro lead more _
  rw [List.singleton_append, weigh_operand hkind, hweight]

theorem Weighs.wrap {parens : Bool} (hwords : Weighs spares (e.words locals) n)
    (hnative : e.Native) (hparens : parens = true → e.isSigned = false) :
    Weighs spares (wrapWords parens (e.words locals)) (wrapCost parens n) := by
  intro lead more hlead
  cases parens with
  | false => exact hwords lead more hlead
  | true =>
      rw [wrapWords, if_pos rfl, weigh_encloseWords,
        hwords .other _ Lead.other_ne_operand, weigh_rightParen, wrapCost,
        if_pos rfl]
      · omega
      · -- Spared parentheses would hold a number with a minus.
        rintro ⟨-, hsigned⟩
        have he := (isSigned_of_closesSigned locals hnative hsigned).1
        rw [hparens rfl] at he
        cases he

theorem Weighs.minus
    (hkinds : weigh spares .negation (kinds ++ more) =
      n + weigh spares .operand more) (hlead : lead ≠ .operand) :
    weigh spares lead (.minus :: kinds ++ more) =
      1 + n + weigh spares .operand more := by
  rw [List.cons_append, weigh_cons_of_ne (by decide), Lead.next_minus hlead,
    hkinds, TokenKind.weight, Nat.add_assoc]

theorem Weighs.negate (hspares : IsSparing spares)
    (he : Weighs spares (e.words locals) (e.cost locals))
    (hnative : e.Native) :
    Weighs spares ((Expr.negate e).words locals)
      ((Expr.negate e).cost locals) := by
  intro lead more hlead
  rw [words, cost]
  refine Weighs.minus ?_ hlead
  cases hsigned : e.isSigned with
  | false =>
      rw [Bool.not_false, Bool.and_true]
      exact he.wrap hnative (fun _ =>
        hsigned) .negation more Lead.negation_ne_operand
  | true =>
      rw [needsParens_of_isSigned hsigned, Bool.not_true, Bool.and_false,
        wrapWords, if_pos rfl,
        wrapCost, if_neg Bool.false_ne_true]
      have hcloses :
          closesSigned (e.words locals ++ .rightParen :: more) = true := by
        cases e with
        | int value =>
            have hvalue : value < 0 := of_decide_eq_true hsigned
            rw [words, if_pos hvalue]
            rfl
        | float value =>
            have hvalue : value.isNegative = true := hsigned
            rw [words, if_pos hvalue]
            rfl
        | _ => cases hsigned
      have hwords : encloseWords (e.words locals) ++ more =
          .leftParen :: (e.words locals ++ .rightParen :: more) := by
            simp [encloseWords]
      rw [hwords, weigh_spared hspares.negation hcloses,
        he .other _ Lead.other_ne_operand,
        weigh_rightParen]

theorem Weighs.infixed {left right : Expr} {op : Operator}
    (hleft : Weighs spares (left.words locals) (left.cost locals))
    (hright : Weighs spares (right.words (left.assigned ++ locals))
      (right.cost (left.assigned ++ locals)))
    (hnative : left.Native ∧ right.Native) :
    Weighs spares ((Expr.infixed left op right).words locals)
      ((Expr.infixed left op right).cost locals) := by
  intro lead more hlead
  -- A number with a minus needs no parentheses on either side.
  have hunsigned : ∀ {e : Expr} {least : Nat}, least ≤ unaryLevel →
      decide (e.level < least) = true → e.isSigned = false := by
    intro e least hleast hlevel
    by_contra hsigned
    rw [level_of_isSigned (by simpa using hsigned)] at hlevel
    exact absurd (of_decide_eq_true hlevel) (Nat.not_lt.mpr hleast)
  have htier : op.tier.level + 1 ≤ unaryLevel := by cases op <;> decide
  have hparen : op.token ≠ .leftParen := by cases op <;> decide
  have hnext : Lead.next .operand op.token ≠ .operand := by cases op <;> decide
  have hleft' :=
    hleft.wrap hnative.1 (hunsigned (Nat.le_of_succ_le htier)) lead
      (op.token :: (wrapWords (decide (right.level < op.tier.level + 1))
        (right.words (left.assigned ++ locals)) ++ more)) hlead
  rw [words, cost, List.append_assoc, List.cons_append, hleft',
    weigh_cons_of_ne hparen,
    hright.wrap hnative.2 (hunsigned htier) _ _ hnext]
  omega

/-! ### Lists -/

/-- The words of expressions with marks between them weigh what the expressions
cost. -/
def WeighsList (spares : Lead → Bool) (locals : List String) (es : List Expr) :
    Prop :=
  ∀ {mark : TokenKind} {lead : Lead} {more : List TokenKind} {n : Nat},
    mark = .separator ∨ mark = .comma → lead ≠ .operand →
    (∀ lead, weigh spares lead more = n) →
    weigh spares lead ([mark].intercalate (wordsList locals es) ++ more) =
      costList locals es + n

theorem weighsList_nil : WeighsList spares locals [] := by
  intro mark lead more n _ _ hmore
  rw [wordsList, List.intercalate_nil, List.nil_append, hmore, costList,
    Nat.zero_add]

theorem Weighs.cons (he : Weighs spares (e.words locals) (e.cost locals))
    (hes : WeighsList spares (e.assigned ++ locals) es) :
    WeighsList spares locals (e :: es) := by
  intro mark lead more n hmark hlead hmore
  cases es with
  | nil =>
      rw [wordsList, wordsList, List.intercalate_singleton, he lead more hlead,
        hmore, costList, costList, Nat.add_zero]
  | cons e' es =>
      have hothers := @hes mark .other more n hmark Lead.other_ne_operand hmore
      rw [wordsList] at hothers
      have hbehind :
          ∀ {kinds}, weigh spares .operand (mark :: kinds) =
            weigh spares .other kinds := by
        rcases hmark with rfl | rfl
        · exact weigh_separator
        · exact weigh_comma
      rw [wordsList, wordsList, List.intercalate_cons_cons, List.append_assoc,
        List.append_assoc,
        he lead _ hlead, List.singleton_append, hbehind, hothers,
        ← Nat.add_assoc]
      rfl

theorem WeighsList.close (hes : WeighsList spares locals es) {mark : TokenKind}
    (hmark : mark = .separator ∨ mark = .comma) (more : List TokenKind) :
    weigh spares .other
      ([mark].intercalate (wordsList locals es) ++ .rightParen :: more) =
      costList locals es + weigh spares .operand more :=
  hes hmark Lead.other_ne_operand fun _ => weigh_rightParen

theorem Weighs.call (hspares : IsSparing spares)
    (hes : WeighsList spares locals es) (name : String) :
    Weighs spares ((Expr.call name es).words locals)
      ((Expr.call name es).cost locals) := by
  intro lead more hlead
  rw [words, cost, List.cons_append, weigh_operand rfl, TokenKind.weight]
  cases hbare : (es.isEmpty && decide (name ∉ locals)) with
  | true =>
      have hempty : es = [] := by
        simp only [Bool.and_eq_true, List.isEmpty_iff] at hbare
        exact hbare.1
      rw [if_pos rfl, hempty, List.nil_append, costList]
      rfl
  | false =>
      rw [if_neg Bool.false_ne_true,
        weigh_encloseWords (by simp [hspares.operand]),
        hes.close (.inr rfl)]
      simp only [Bool.not_false, wrapCost, if_true]
      omega

theorem Weighs.sequence (hes : WeighsList spares locals es)
    (hnative : NativeList es) (hlength : es.length ≠ 1) :
    Weighs spares ((Expr.sequence es).words locals)
      ((Expr.sequence es).cost locals) := by
  intro lead more hlead
  rw [words, cost, weigh_encloseWords, hes.close (.inl rfl), Nat.add_assoc]
  rintro ⟨-, hsigned⟩
  match es, hlength with
  | [], _ => cases hsigned
  | first :: second :: others, _ =>
      rw [wordsList, wordsList, List.intercalate_cons_cons, List.append_assoc,
        List.append_assoc, List.singleton_append] at hsigned
      have hmark := (isSigned_of_closesSigned locals hnative.1 hsigned).2
      cases hmark

end Words

theorem not_neg_of_neg {value : Int64} (hleast : value ≠ Int64.minValue)
    (hvalue : value < 0) :
    ¬ -value < 0 := by
  have hlow := value.le_toInt
  have hne : value.toInt ≠ -2 ^ 63 :=
    fun heq => hleast (Int64.toInt_inj.mp heq)
  have hzero : (0 : Int64).toInt = 0 := rfl
  rw [Int64.lt_iff_toInt_lt, hzero] at hvalue ⊢
  rw [Int64.toInt_neg, Int.bmod_eq_of_le] <;> omega

mutual

/-- Behind no operand the words of an expression weigh what it costs. -/
theorem weigh_words {spares : Lead → Bool} (hspares : IsSparing spares) :
    ∀ {e : Expr}
    {locals : List String}, e.Native → e.Scoped locals →
      Weighs spares (e.words locals) (e.cost locals)
  | int value, locals, _, hscoped => by
      rw [words, cost]
      split
      · next hvalue =>
          have hleaf : Weighs spares [.int (-value)] 1 :=
            .leaf rfl (if_neg (not_neg_of_neg hscoped hvalue))
          intro lead more hlead
          exact
            Weighs.minus (hleaf .negation more Lead.negation_ne_operand) hlead
      · next hvalue => exact .leaf rfl (if_neg hvalue)
  | float value, locals, _, _ => by
      rw [words, cost]
      split
      · next hvalue =>
          have hleaf : Weighs spares [.float value.neg] 4 :=
            .leaf rfl (if_neg (by simp [hvalue]))
          intro lead more hlead
          exact
            Weighs.minus (hleaf .negation more Lead.negation_ne_operand) hlead
      · next hvalue => exact .leaf rfl (if_neg hvalue)
  | str _, _, _, _ | bytes _, _, _, _ | sym _, _, _, _ | nil, _, _, _
  | bool _, _, _, _
  | var _, _, _, _ => .leaf rfl rfl
  | assign name value, locals, hnative, hscoped => by
      intro lead more _
      have hvalue :=
        weigh_words hspares (e := value) hnative hscoped.2 .other more
          Lead.other_ne_operand
      rw [words, cost, List.cons_append, List.cons_append, weigh_operand rfl,
        weigh_assign, hvalue, TokenKind.weight, Nat.add_assoc]
  | sequence items, locals, hnative, hscoped =>
      .sequence (weigh_wordsList hspares hnative hscoped.2) hnative hscoped.1
  | negate operand, locals, hnative, hscoped =>
      .negate hspares (weigh_words hspares (e := operand) hnative hscoped)
        hnative
  | infixed left op right, locals, hnative, hscoped =>
      .infixed (weigh_words hspares hnative.1 hscoped.1)
        (weigh_words hspares hnative.2 hscoped.2)
        hnative
  | call name args, locals, hnative, hscoped =>
      .call hspares (weigh_wordsList hspares hnative hscoped.2) name
  | foreign _, _, hnative, _ => hnative.elim

theorem weigh_wordsList {spares : Lead → Bool} (hspares : IsSparing spares) :
    ∀ {es : List Expr} {locals : List String}, NativeList es →
      ScopedList locals es →
      WeighsList spares locals es
  | [], _, _, _ => weighsList_nil
  | _ :: _, _, hnative, hscoped =>
      (weigh_words hspares hnative.1 hscoped.1).cons
        (weigh_wordsList hspares hnative.2 hscoped.2)

end

end Expr
end Reparse.Toy
