import Reparse.Proofs.Toy.Reading
import Reparse.Proofs.Toy.Words

/-!
# The weight of a text

Tokens are weighed such that no text weighs less than what it reads as costs,
and a printed text weighs just that.  An opening parenthesis weighs one, unless
it stands between a minus and a negative number: there it says nothing that the
minus does not say without it.

Whether a minus belongs to an operand in front of it is not seen from the minus
alone, so the weight is taken under a `Lead`, which remembers what stands in
front.  How much a pair of parentheses weighs does not depend on what is around
it, so that a text without one of its pairs weighs less.
-/

namespace Reparse.Toy

/-! ## What stands in front -/

inductive Lead where
  | operand
  /-- A minus that has no operand in front. -/
  | negation
  /-- A minus behind an operand. -/
  | difference
  | other
  deriving DecidableEq

def TokenKind.endsOperand : TokenKind → Bool
  | int _ | float _ | str _ | bytes _ | sym _ | ident _ | nil | bool _
  | lineWord | fileWord
  | rightParen => true
  | _ => false

namespace Lead

def next (lead : Lead) (kind : TokenKind) : Lead :=
  if kind = .minus then
    if lead = operand then difference else negation
  else if kind.endsOperand then operand else other

def after (lead : Lead) (kinds : List TokenKind) : Lead :=
  kinds.foldl next lead

def isNegation (lead : Lead) : Bool :=
  lead == negation

def isMinus (lead : Lead) : Bool :=
  lead == negation || lead == difference

theorem after_nil (lead : Lead) : lead.after [] = lead := rfl

theorem after_append (lead : Lead) (kinds more : List TokenKind) :
    lead.after (kinds ++ more) = (lead.after kinds).after more :=
  List.foldl_append

theorem other_ne_operand : other ≠ operand := by decide

theorem negation_ne_operand : negation ≠ operand := by decide

theorem isMinus_of_isNegation {lead : Lead} (hlead : lead.isNegation = true) :
    lead.isMinus = true := by
  unfold isNegation at hlead
  unfold isMinus
  rw [hlead, Bool.true_or]

theorem isMinus_next (lead : Lead) (kind : TokenKind) :
    (lead.next kind).isMinus = decide (kind = .minus) := by
  unfold next
  by_cases hminus : kind = .minus
  · rw [if_pos hminus, decide_eq_true hminus]
    split <;> rfl
  · rw [if_neg hminus, decide_eq_false hminus]
    split <;> rfl

theorem next_eq_negation_iff {lead : Lead} {kind : TokenKind} :
    lead.next kind = negation ↔ kind = .minus ∧ lead ≠ operand := by
  unfold next
  by_cases hminus : kind = .minus
  · rw [if_pos hminus]
    by_cases hlead : lead = operand <;> simp [hminus, hlead]
  · rw [if_neg hminus]
    constructor
    · intro hnext
      split at hnext <;> cases hnext
    · exact fun hnext => absurd hnext.1 hminus

theorem next_of_endsOperand {kind : TokenKind}
    (hkind : kind.endsOperand = true) (lead : Lead) :
    lead.next kind = operand := by
  have hminus : kind ≠ .minus := by
    rintro rfl
    cases hkind
  rw [next, if_neg hminus, if_pos hkind]

theorem next_minus {lead : Lead} (hlead : lead ≠ operand) :
    lead.next .minus = negation :=
  next_eq_negation_iff.mpr ⟨rfl, hlead⟩

end Lead

/-! ## Weights -/

/-- Whether the tokens are a number with a minus and the parenthesis that
closes behind it. -/
def closesSigned : List TokenKind → Bool
  | .minus :: .int _ :: .rightParen :: _ => true
  | .minus :: .float _ :: .rightParen :: _ => true
  | _ => false

theorem closesSigned_iff {kinds : List TokenKind} :
    closesSigned kinds = true ↔
      ∃ number more, IsNumber number ∧
        kinds = .minus :: number :: .rightParen :: more := by
  constructor
  · intro hsigned
    unfold closesSigned at hsigned
    split at hsigned
    · next value more => exact ⟨.int value, more, trivial, rfl⟩
    · next value more => exact ⟨.float value, more, trivial, rfl⟩
    · cases hsigned
  · rintro ⟨number, more, hnumber, rfl⟩
    cases number with
    | int value | float value => rfl
    | _ => exact hnumber.elim

/-- What a token weighs by itself.  Digits that a word in front takes up may
leave a word, a minus and an integer of an exponent, and all these weigh less
than the word, a parenthesis and the number. -/
def TokenKind.weight : TokenKind → Nat
  | int value => if value < 0 then 2 else 1
  | float value => if value.isNegative then 5 else 4
  | lineWord => 2
  | str _ | bytes _ | sym _ | ident _ | nil | bool _ | fileWord | leftParen
  | minus => 1
  | rightParen | comma | plus | star | slash | assign | separator => 0

/-- The weight of the tokens, where a parenthesis in front of a negative number
is free behind what `spares` holds of. -/
def weigh (spares : Lead → Bool) : Lead → List TokenKind → Nat
  | _, [] => 0
  | lead, kind :: more =>
    (if kind = .leftParen ∧ spares lead = true ∧
      closesSigned more = true then 0
      else kind.weight) + weigh spares (lead.next kind) more

section Weights

variable {spares other : Lead → Bool} {lead lead' : Lead} {kind : TokenKind}
variable {before inside after kinds more : List TokenKind}

theorem weigh_cons_of_ne (hkind : kind ≠ .leftParen) (more : List TokenKind) :
    weigh spares lead (kind :: more) =
      kind.weight + weigh spares (lead.next kind) more := by
  rw [weigh, if_neg fun hspared => hkind hspared.1]

theorem weigh_paren
    (hspares : ¬ (spares lead = true ∧ closesSigned more = true)) :
    weigh spares lead (.leftParen :: more) = 1 + weigh spares .other more := by
  rw [weigh, if_neg fun hspared => hspares hspared.2]
  rfl

theorem weigh_spared (hspares : spares lead = true)
    (hsigned : closesSigned more = true) :
    weigh spares lead (.leftParen :: more) = weigh spares .other more := by
  rw [weigh, if_pos ⟨rfl, hspares, hsigned⟩, Nat.zero_add]
  rfl

theorem weigh_cons_le (lead : Lead) (kind : TokenKind)
    (more : List TokenKind) :
    weigh spares lead (kind :: more) ≤
      kind.weight + weigh spares (lead.next kind) more := by
  rw [weigh]
  split
  · omega
  · exact Nat.le_refl _

@[simp] theorem weigh_rightParen :
    weigh spares lead (.rightParen :: more) = weigh spares .operand more :=
  (weigh_cons_of_ne (by decide) more).trans (Nat.zero_add _)

@[simp] theorem weigh_separator :
    weigh spares lead (.separator :: more) = weigh spares .other more :=
  (weigh_cons_of_ne (by decide) more).trans (Nat.zero_add _)

@[simp] theorem weigh_comma :
    weigh spares lead (.comma :: more) = weigh spares .other more :=
  (weigh_cons_of_ne (by decide) more).trans (Nat.zero_add _)

@[simp] theorem weigh_assign :
    weigh spares lead (.assign :: more) = weigh spares .other more :=
  (weigh_cons_of_ne (by decide) more).trans (Nat.zero_add _)

theorem weigh_operand (hkind : kind.endsOperand = true) :
    weigh spares lead (kind :: more) =
      kind.weight + weigh spares .operand more := by
  have hparen : kind ≠ .leftParen := by
    rintro rfl
    cases hkind
  rw [weigh_cons_of_ne hparen, Lead.next_of_endsOperand hkind]

theorem one_le_weight (hkind : kind.endsOperand = true)
    (hclose : kind ≠ .rightParen) :
    1 ≤ kind.weight := by
  cases kind with
  | int value | float value =>
      simp only [TokenKind.weight]
      split <;> omega
  | rightParen => exact absurd rfl hclose
  | str _ | bytes _ | sym _ | ident _ | nil | bool _ | lineWord | fileWord =>
      simp [TokenKind.weight]
  | _ => cases hkind

theorem endsOperand_of_isNumber (hkind : IsNumber kind) :
    kind.endsOperand = true := by
  cases kind with
  | int value | float value => rfl
  | _ => exact hkind.elim

/-! ## The weight behind different leads -/

/-- Tokens that begin alike compare as what follows, where one weighing spares
all that the other does. -/
theorem weigh_cons_add_le {d : Nat}
    (hfree : spares lead = true → closesSigned more = true →
      other lead' = true ∧ closesSigned kinds = true)
    (hmore : weigh other (lead'.next kind) kinds + d ≤
      weigh spares (lead.next kind) more) :
    weigh other lead' (kind :: kinds) + d ≤
      weigh spares lead (kind :: more) := by
  by_cases hspared : kind = .leftParen ∧ spares lead = true ∧
    closesSigned more = true
  · rw [weigh, weigh, if_pos hspared,
      if_pos ⟨hspared.1, hfree hspared.2.1 hspared.2.2⟩]
    omega
  · have hle := @weigh_cons_le other lead' kind kinds
    rw [weigh.eq_2 spares, if_neg hspared]
    omega

theorem weigh_cons_mono
    (hfree : spares lead = true → closesSigned more = true →
      other lead' = true ∧ closesSigned kinds = true)
    (hmore : weigh other (lead'.next kind) kinds ≤
      weigh spares (lead.next kind) more) :
    weigh other lead' (kind :: kinds) ≤ weigh spares lead (kind :: more) :=
  @weigh_cons_add_le _ _ _ _ _ _ _ 0 hfree hmore

theorem weigh_cons_lt
    (hfree : spares lead = true → closesSigned more = true →
      other lead' = true ∧ closesSigned kinds = true)
    (hmore : weigh other (lead'.next kind) kinds <
      weigh spares (lead.next kind) more) :
    weigh other lead' (kind :: kinds) < weigh spares lead (kind :: more) :=
  @weigh_cons_add_le _ _ _ _ _ _ _ 1 hfree hmore

/-- The more is spared, the less the tokens weigh. -/
theorem weigh_mono (hspares : ∀ lead, spares lead = true → other lead = true) :
    weigh other lead kinds ≤ weigh spares lead kinds := by
  induction kinds generalizing lead with
  | nil => exact Nat.le_refl _
  | cons kind more ih =>
      apply weigh_cons_mono fun hlead hsigned => ⟨hspares lead hlead, hsigned⟩
      exact ih

/-- Where one weighing spares a parenthesis that the other counts, the weights
differ. -/
theorem weigh_lt_of_spared
    (hspares : ∀ lead, spares lead = true → other lead = true)
    (hcounted : spares (lead.after before) = false)
    (hspared : other (lead.after before) = true)
    (hsigned : closesSigned more = true) :
    weigh other lead (before ++ .leftParen :: more) <
      weigh spares lead (before ++ .leftParen :: more) := by
  induction before generalizing lead with
  | nil =>
      rw [Lead.after_nil] at hcounted hspared
      have hmore : weigh other .other more ≤ weigh spares .other more :=
        weigh_mono hspares
      rw [List.nil_append, weigh_spared hspared hsigned,
        weigh_paren (by simp [hcounted])]
      omega
  | cons kind before ih =>
      apply weigh_cons_lt fun hlead hsigned => ⟨hspares lead hlead, hsigned⟩
      exact ih hcounted hspared

/-- Where every minus spares, what matters of a lead is only whether it is a
minus. -/
theorem weigh_lead_le (hlead : lead.isMinus = true → lead'.isMinus = true) :
    weigh Lead.isMinus lead' kinds ≤ weigh Lead.isMinus lead kinds := by
  induction kinds generalizing lead lead' with
  | nil => exact Nat.le_refl _
  | cons kind more ih =>
      apply weigh_cons_mono fun hminus hsigned => ⟨hlead hminus, hsigned⟩
      apply ih
      rw [Lead.isMinus_next, Lead.isMinus_next]
      exact id

/-! ## The weight of a text in parts -/

/-- The token has no place in a number in parentheses. -/
def TokenKind.IsApart (kind : TokenKind) : Prop :=
  kind ≠ .minus ∧ ¬ IsNumber kind ∧ kind ≠ .rightParen

theorem isApart_leftParen : TokenKind.leftParen.IsApart :=
  ⟨nofun, id, nofun⟩

/-- How a number in parentheses may lie across a seam. -/
theorem closesSigned_append_cases
    (hsigned : closesSigned (before ++ more) = true) :
    (∀ kinds, closesSigned (before ++ kinds) = true) ∨
      ∃ kind rest, more = kind :: rest ∧ ((kind = .minus ∧ before = []) ∨
        (IsNumber kind ∧ before = [.minus]) ∨
        (kind = .rightParen ∧ ∃ number, IsNumber number ∧
          before = [.minus, number])) := by
  obtain ⟨number, rest, hnumber, hwhole⟩ := closesSigned_iff.mp hsigned
  match before, hwhole with
  | [], hwhole => exact .inr ⟨_, _, hwhole, .inl ⟨rfl, rfl⟩⟩
  | [_], hwhole =>
      obtain ⟨rfl, hmore⟩ := List.cons.inj hwhole
      exact .inr ⟨_, _, hmore, .inr (.inl ⟨hnumber, rfl⟩)⟩
  | [_, _], hwhole =>
      simp only [List.cons_append, List.nil_append, List.cons.injEq] at hwhole
      obtain ⟨rfl, rfl, hmore⟩ := hwhole
      exact .inr ⟨_, _, hmore, .inr (.inr ⟨rfl, _, hnumber, rfl⟩)⟩
  | _ :: _ :: _ :: before, hwhole =>
      simp only [List.cons_append, List.cons.injEq] at hwhole
      obtain ⟨rfl, rfl, rfl, -⟩ := hwhole
      exact .inl fun kinds =>
        closesSigned_iff.mpr ⟨_, before ++ kinds, hnumber, rfl⟩

theorem closesSigned_append (hkind : kind.IsApart)
    (hsigned : closesSigned (before ++ kind :: more) = true)
    (kinds : List TokenKind) :
    closesSigned (before ++ kinds) = true := by
  rcases closesSigned_append_cases hsigned with
    hall | ⟨first, rest, hmore, hfirst⟩
  · exact hall kinds
  · obtain ⟨rfl, -⟩ := List.cons.inj hmore
    rcases hfirst with ⟨hminus, -⟩ | ⟨hnumber, -⟩ | ⟨hclose, -⟩
    · exact absurd hminus hkind.1
    · exact absurd hnumber hkind.2.1
    · exact absurd hclose hkind.2.2

/-- The tokens in front weigh no more when what is behind them is replaced, as
long as it did not begin within a number in parentheses. -/
theorem weigh_append_lt (hkind : kind.IsApart)
    (hlt : weigh spares (lead.after before) kinds <
      weigh spares (lead.after before) (kind :: more)) :
    weigh spares lead (before ++ kinds) <
      weigh spares lead (before ++ kind :: more) := by
  induction before generalizing lead with
  | nil => exact hlt
  | cons first before ih =>
      apply weigh_cons_lt fun hlead hsigned =>
        ⟨hlead, closesSigned_append hkind hsigned kinds⟩
      exact ih hlt

/-! ## Parentheses -/

/-- Every parenthesis among the tokens has its match among them. -/
inductive Balanced : List TokenKind → Prop where
  | nil : Balanced []
  | token {kind : TokenKind} {more : List TokenKind}
      (hopen : kind ≠ .leftParen) (hclose : kind ≠ .rightParen)
      (hmore : Balanced more) : Balanced (kind :: more)
  | paren {inside more : List TokenKind} (hinside : Balanced inside)
      (hmore : Balanced more) :
      Balanced (.leftParen :: (inside ++ .rightParen :: more))

theorem Balanced.tail (hbalanced : Balanced (kind :: more))
    (hkind : kind ≠ .leftParen) :
    kind ≠ .rightParen ∧ Balanced more := by
  generalize hkinds : kind :: more = kinds at hbalanced
  cases hbalanced with
  | nil => cases hkinds
  | token _ hclose hmore =>
      cases hkinds
      exact ⟨hclose, hmore⟩
  | paren _ _ =>
      cases hkinds
      exact absurd rfl hkind

theorem closesSigned_close
    (hsigned : closesSigned (inside ++ .rightParen :: more) = true)
    (kinds : List TokenKind) :
    closesSigned (inside ++ .rightParen :: kinds) = true := by
  rcases closesSigned_append_cases hsigned with
    hall | ⟨first, rest, hmore, hfirst⟩
  · exact hall _
  · obtain ⟨rfl, -⟩ := List.cons.inj hmore
    rcases hfirst with ⟨hminus, -⟩ | ⟨hnumber, -⟩ | ⟨-, number, hnumber, rfl⟩
    · cases hminus
    · exact hnumber.elim
    · exact closesSigned_iff.mpr ⟨number, kinds, hnumber, rfl⟩

/-- A closing parenthesis behind balanced tokens adds nothing that a text
without it has. -/
theorem Balanced.weigh_le (hinside : Balanced inside)
    (hmore : ∀ lead, weigh spares lead kinds ≤ weigh spares lead more)
    (lead : Lead) :
    weigh spares lead (inside ++ kinds) ≤
      weigh spares lead (inside ++ more) := by
  induction hinside generalizing lead kinds more with
  | nil => exact hmore lead
  | token hopen _ _ ih =>
      rw [List.cons_append, List.cons_append, weigh_cons_of_ne hopen,
        weigh_cons_of_ne hopen]
      exact Nat.add_le_add_left (ih hmore _) _
  | @paren inside rest _ _ ihInside ihMore =>
      have hrest : ∀ lead, weigh spares lead (.rightParen :: (rest ++ kinds)) ≤
          weigh spares lead (.rightParen :: (rest ++ more)) := by
        intro lead
        rw [weigh_rightParen, weigh_rightParen]
        exact ihMore hmore .operand
      have hwhole := ihInside hrest (lead.next .leftParen)
      -- What is behind the closing parenthesis has no part in whether the
      -- opening one is spared.
      have hsame : closesSigned (inside ++ .rightParen :: (rest ++ kinds)) =
          closesSigned (inside ++ .rightParen :: (rest ++ more)) := by
        apply Bool.eq_iff_iff.mpr
        constructor
        · intro hsigned
          exact closesSigned_close hsigned _
        · intro hsigned
          exact closesSigned_close hsigned _
      simp only [List.cons_append, List.append_assoc]
      rw [weigh, weigh, hsame]
      exact Nat.add_le_add_left hwhole _

theorem Balanced.weigh_close_le (hinside : Balanced inside) (lead : Lead)
    (after : List TokenKind) :
    weigh Lead.isMinus lead (inside ++ after) ≤
      weigh Lead.isMinus lead (inside ++ .rightParen :: after) := by
  apply hinside.weigh_le
  intro lead
  rw [weigh_rightParen]
  exact weigh_lead_le nofun

/-- Without a pair of parentheses that is not spared, the tokens weigh less. -/
theorem Balanced.weigh_lt (hinside : Balanced inside)
    (hspares : ¬ ((lead.after before).isMinus = true ∧
      closesSigned (inside ++ .rightParen :: after) = true)) :
    weigh Lead.isMinus lead (before ++ (inside ++ after)) <
      weigh Lead.isMinus lead
        (before ++ .leftParen :: (inside ++ .rightParen :: after)) := by
  apply weigh_append_lt isApart_leftParen
  rw [weigh_paren hspares]
  have hlead : weigh Lead.isMinus (lead.after before) (inside ++ after) ≤
      weigh Lead.isMinus .other (inside ++ after) := weigh_lead_le nofun
  have hclose := hinside.weigh_close_le .other after
  omega

/-- Nothing but the number is between parentheses that close behind it. -/
theorem Balanced.eq_of_closesSigned (hinside : Balanced inside)
    (hsigned : closesSigned (inside ++ .rightParen :: after) = true) :
    ∃ number, IsNumber number ∧ inside = [.minus, number] := by
  rcases closesSigned_append_cases hsigned with
    hall | ⟨first, rest, hmore, hfirst⟩
  · -- The closing parenthesis would be among the tokens, where it has no
    -- match.
    have hwhole := hall []
    rw [List.append_nil] at hwhole
    obtain ⟨number, rest, hnumber, rfl⟩ := closesSigned_iff.mp hwhole
    have hnumber' : number ≠ .leftParen := by
      rintro rfl
      exact hnumber
    have hrest := ((hinside.tail nofun).2.tail hnumber').2
    exact absurd rfl (hrest.tail nofun).1
  · obtain ⟨rfl, -⟩ := List.cons.inj hmore
    rcases hfirst with ⟨hminus, -⟩ | ⟨hnumber, -⟩ | ⟨-, number, hnumber, rfl⟩
    · cases hminus
    · exact hnumber.elim
    · exact ⟨number, hnumber, rfl⟩

end Weights

end Reparse.Toy
