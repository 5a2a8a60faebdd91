import Reparse.Proofs.Toy.Shape

/-!
# Where the parser reports faults

Every fault that the readers report stands at a token that they were given, or
at the end of the program. A reader is handed over to others with fewer tokens,
so that one statement about a list of tokens covers what is reported further
on.
-/

namespace Reparse.Toy

open Text Reader

/-- The fault stands at one of the tokens or at the end. -/
def Context.Locates (ctx : Context) (ts : List Token) (fault : Fault) : Prop :=
  ∃ rest cause, rest ⊆ ts ∧ fault = ctx.faultAt rest cause

/-- Whatever the reader reports stands at one of the tokens or at the end. -/
def Reader.Locates {α : Type} (ctx : Context) (ts : List Token)
    (read : Reader α) : Prop :=
  ∀ budget fault, read budget = .error fault → ctx.Locates ts fault

/-! ## Readers put together -/

section Combinators

variable {α β : Type} {ctx : Context} {ts rest : List Token} {fault : Fault}
variable {cause : Cause}

theorem Context.Locates.mono (hfault : ctx.Locates rest fault)
    (hsubset : rest ⊆ ts) :
    ctx.Locates ts fault := by
  obtain ⟨found, cause, hfound, rfl⟩ := hfault
  exact ⟨found, cause, List.Subset.trans hfound hsubset, rfl⟩

theorem locates_faultAt (hsubset : rest ⊆ ts) :
    ctx.Locates ts (ctx.faultAt rest cause) :=
  ⟨rest, cause, hsubset, rfl⟩

theorem locates_done (value : α) : (done value).Locates ctx ts :=
  fun _ _ hread => nomatch hread

theorem locates_error (hsubset : rest ⊆ ts) :
    Reader.Locates ctx ts fun _ =>
      (.error (ctx.faultAt rest cause) : Except Fault α) := by
  intro budget fault herror
  cases herror
  exact locates_faultAt hsubset

theorem Reader.Locates.mono {read : Reader α} (hread : read.Locates ctx rest)
    (hsubset : rest ⊆ ts) : read.Locates ctx ts :=
  fun budget fault herror => (hread budget fault herror).mono hsubset

theorem Reader.Locates.descend {read : Reader α} (hread : read.Locates ctx ts)
    (hsubset : rest ⊆ ts) :
    (Reader.descend (ctx.faultAt rest cause) read).Locates ctx ts := by
  intro budget fault herror
  cases budget with
  | zero =>
      cases herror
      exact locates_faultAt hsubset
  | succ budget => exact hread budget fault herror

theorem Reader.Locates.andThen {read : Reader α} {next : α → Reader β}
    (hread : read.Locates ctx ts)
    (hnext : ∀ budget a, read budget = .ok a → (next a).Locates ctx ts) :
    (read.andThen next).Locates ctx ts := by
  intro budget fault herror
  unfold Reader.andThen at herror
  cases hfirst : read budget with
  | error fault' =>
      rw [hfirst] at herror
      cases herror
      exact hread budget _ hfirst
  | ok a =>
      rw [hfirst] at herror
      exact hnext budget a hfirst budget fault herror

theorem Reader.Locates.andThen_done {read : Reader α} {value : α → β}
    (hread : read.Locates ctx ts) :
    (read.andThen fun a => done (value a)).Locates ctx ts :=
  hread.andThen fun _ _ _ => locates_done _

end Combinators

/-! ## The readers -/

section Readers

variable {ctx : Context} {locals : List String} {ts : List Token}

theorem derivable_of_read {form : Form} {budget : Nat} {out : form.Output}
    (hread : form.read ctx locals ts budget = .ok out) :
    Derivable ctx form locals ts budget out := by
  cases form with
  | statement => exact derivable_statement hread
  | chain tier => exact derivable_chain hread
  | operand tier => exact derivable_operand hread
  | tail tier left => exact derivable_tail hread
  | unary => exact derivable_unary hread
  | primary => exact derivable_primary hread
  | items bracket => exact derivable_items hread

theorem subset_of_read {form : Form} {budget : Nat} {out : form.Output}
    (hread : form.read ctx locals ts budget = .ok out) : out.2.2 ⊆ ts := by
  obtain ⟨cost, -, hderives⟩ := derivable_of_read hread
  exact hderives.subset

/-- A token that begins no primary expression is reported. -/
theorem read_primary_unexpected {t : Token} {rest : List Token}
    (hliteral : literal? ctx t = none) (hname : ∀ name, t.kind ≠ .ident name)
    (hparen : t.kind ≠ .leftParen) :
    Form.primary.read ctx locals (t :: rest) =
      fun _ =>
        .error (ctx.faultAt (t :: rest) (.unexpectedToken (some t.kind))) := by
  funext budget
  simp only [Form.read]
  rw [primary]
  simp only [hliteral]
  rfl

theorem locates_primary {t : Token} {rest : List Token}
    (hitems : ∀ (bracket : Bracket) (inner : List Token),
      inner.length ≤ rest.length →
      ((Form.items bracket).read ctx locals inner).Locates ctx inner) :
    (Form.primary.read ctx locals (t :: rest)).Locates ctx (t :: rest) := by
  have htail : rest ⊆ t :: rest := List.subset_cons_self t rest
  cases hliteral : literal? ctx t with
  | some node =>
      rw [read_literal hliteral]
      exact locates_done _
  | none =>
      by_cases hname : ∃ name, t.kind = .ident name
      · obtain ⟨name, hname⟩ := hname
        by_cases hparen : peek rest = some .leftParen
        · obtain ⟨paren, inner, rfl, hkind⟩ := exists_of_peek_eq hparen
          rw [read_call hname hkind]
          have hinner := hitems .call inner (by simp)
          exact
            (hinner.mono
              (List.Subset.trans (List.subset_cons_self _ _)
                htail)).andThen_done
        · rw [read_name hname hparen]
          exact locates_done _
      by_cases hparen : t.kind = .leftParen
      · rw [read_group hparen]
        have hinner := hitems .group _ (skipSeparators rest).property
        exact
          (hinner.mono
            (List.Subset.trans (skipSeparators_subset rest)
              htail)).andThen_done
      · rw [read_primary_unexpected hliteral (fun name hkind =>
          hname ⟨name, hkind⟩) hparen]
        exact locates_error (List.Subset.refl _)

theorem locates_afterItem {bracket : Bracket} {out : Form.statement.Output}
    (hitems : ∀ inner : List Token, inner.length < out.2.2.length →
      ((Form.items bracket).read ctx out.2.1 inner).Locates ctx inner) :
    (afterItem ctx bracket out).Locates ctx out.2.2 := by
  obtain ⟨node, locals, ts⟩ := out
  cases ts with
  | nil => exact locates_error (List.Subset.refl _)
  | cons t rest =>
      unfold afterItem
      dsimp only
      by_cases hclose : t.kind = .rightParen
      · rw [if_pos hclose]
        exact locates_done _
      rw [if_neg hclose]
      by_cases hmark : t.kind = bracket.mark
      · rw [if_pos hmark]
        have hinner := hitems (bracket.skip rest)
          (Nat.lt_succ_of_le (bracket.length_skip_le rest))
        have hsubset : bracket.skip rest ⊆ t :: rest :=
          List.Subset.trans (bracket.skip_subset rest)
            (List.subset_cons_self _ _)
        exact (hinner.mono hsubset).andThen_done
      · rw [if_neg hmark]
        have hhere : t :: rest ⊆ t :: rest := List.Subset.refl _
        exact locates_error hhere

/-- The order in which readers hand over the same tokens. -/
def Form.rank : Form → Nat
  | .statement => 6
  | .chain tier => tier.rank
  | .operand tier => tier.rank - 1
  | .tail _ _ => 0
  | .unary => 1
  | .primary => 0
  | .items _ => 7

theorem Tier.rank_bounds (tier : Tier) : 0 < tier.rank ∧ tier.rank < 6 := by
  cases tier <;> decide

theorem Form.rank_le (form : Form) : form.rank ≤ 7 := by
  cases form with
  | chain tier => exact tier.rank_bounds.2.le.trans (Nat.le_succ 6)
  | operand tier =>
      exact (Nat.sub_le _ _).trans
        (tier.rank_bounds.2.le.trans (Nat.le_succ 6))
  | _ => simp [Form.rank]

theorem locates_read (ctx : Context) :
    ∀ (form : Form) (locals : List String) (ts : List Token),
    (form.read ctx locals ts).Locates ctx ts
  | .statement, locals, ts => by
      by_cases hassign : IsAssignment ts
      · obtain ⟨t, mark, rest, name, hts, hname, hmark⟩ := hassign.shape
        have hshorter : rest.length + 2 = ts.length := by simp [hts]
        have hvalue := locates_read ctx .statement (name :: locals) rest
        have hrest : rest ⊆ t :: mark :: rest :=
          List.subset_cons_of_subset _ (List.subset_cons_self _ _)
        rw [hts, read_assignment hname hmark]
        exact (hvalue.mono hrest).andThen_done.descend (List.Subset.refl _)
      · have hchain := locates_read ctx (.chain .sum) locals ts
        rw [read_expression hassign]
        exact hchain.descend (List.Subset.refl _)
  | .chain tier, locals, ts => by
      have hrank := tier.rank_bounds
      have hoperand := locates_read ctx (.operand tier) locals ts
      rw [read_chain]
      refine hoperand.andThen fun budget out hread => ?_
      have hlength := Form.length_lt_of_read (by simp) hread
      have htail := locates_read ctx (.tail tier out.1) out.2.1 out.2.2
      exact htail.mono (subset_of_read hread)
  | .operand .sum, locals, ts => by
      have hchain := locates_read ctx (.chain .product) locals ts
      rwa [read_operand_sum]
  | .operand .product, locals, ts => by
      have hunary := locates_read ctx .unary locals ts
      rwa [read_operand_product]
  | .tail tier left, locals, ts => by
      by_cases hcontinues : Continues tier ts
      · obtain ⟨t, rest, op, hts, hop, htier⟩ := hcontinues.shape
        have hshorter : rest.length + 1 = ts.length := by simp [hts]
        have hrank := tier.rank_bounds
        have hoperand := locates_read ctx (.operand tier) locals rest
        have hrest : rest ⊆ t :: rest := List.subset_cons_self _ _
        rw [hts, read_tail_operator hop htier]
        refine Reader.Locates.descend (Reader.Locates.mono ?_ hrest) hrest
        refine hoperand.andThen fun budget out hread => ?_
        have hlength := Form.length_lt_of_read (by simp) hread
        have htail :=
          locates_read ctx (.tail tier (binary left op out.1)) out.2.1 out.2.2
        exact htail.mono (subset_of_read hread)
      · rw [read_tail_end hcontinues]
        exact locates_done _
  | .unary, locals, ts => by
      by_cases hminus : peek ts = some .minus
      · obtain ⟨minus, rest, hts, hkind⟩ := exists_of_peek_eq hminus
        have hshorter : rest.length + 1 = ts.length := by simp [hts]
        have hrest : rest ⊆ minus :: rest := List.subset_cons_self _ _
        by_cases hnumber : ∃ kind ∈ peek rest, IsNumber kind
        · obtain ⟨kind, hpeek, hkind'⟩ := hnumber
          obtain ⟨t, rest', hrest', rfl⟩ := exists_of_peek_eq hpeek
          obtain ⟨node, hnode⟩ := Option.ne_none_iff_exists'.mp
            fun hnone => negated?_eq_none_iff.mp hnone hkind'
          rw [hts, hrest', read_negative_literal hkind hnode]
          exact locates_done _
        · have hoperand := locates_read ctx .unary locals rest
          rw [hts,
            read_negation hkind fun kind hpeek hkind' =>
              hnumber ⟨kind, hpeek, hkind'⟩]
          exact (hoperand.mono hrest).andThen_done.descend hrest
      · have hprimary := locates_read ctx .primary locals ts
        rwa [read_unary_primary hminus]
  | .primary, locals, [] => by
      have hread : Form.primary.read ctx locals [] =
          fun _ => .error (ctx.faultAt [] (.unexpectedToken none)) := by
        funext budget
        simp only [Form.read]
        rw [primary]
        rfl
      rw [hread]
      exact locates_error (List.Subset.refl _)
  | .primary, locals, t :: rest =>
      locates_primary fun bracket inner hinner =>
        locates_read ctx (.items bracket) locals inner
  | .items bracket, locals, ts => by
      by_cases hclose : peek ts = some .rightParen
      · obtain ⟨t, rest, rfl, hkind⟩ := exists_of_peek_eq hclose
        rw [read_items_end hkind]
        exact locates_done _
      · have hstatement := locates_read ctx .statement locals ts
        rw [read_items_item hclose]
        refine hstatement.andThen fun budget out hread => ?_
        have hlength := Form.length_lt_of_read (by simp) hread
        have hafter := locates_afterItem fun inner hinner =>
          locates_read ctx (.items bracket) out.2.1 inner
        exact hafter.mono (subset_of_read hread)
termination_by form _ ts => 8 * ts.length + form.rank
decreasing_by
  all_goals simp only [Form.rank, List.length_cons]
  all_goals first | omega | (simp only [Tier.rank]; omega)

theorem locates_afterStatement {out : Form.statement.Output} {fault : Fault}
    (hstatements : ∀ inner : List Token, inner.length < out.2.2.length →
      statements ctx out.2.1 inner = .error fault → ctx.Locates inner fault)
    (herror : afterStatement ctx out = .error fault) :
    ctx.Locates out.2.2 fault := by
  obtain ⟨node, locals, ts⟩ := out
  cases ts with
  | nil => cases herror
  | cons t rest =>
      unfold afterStatement at herror
      dsimp only at herror
      split at herror
      · have hskip := (skipSeparators rest).property
        cases hmore : statements ctx locals (skipSeparators rest).val with
        | ok nodes =>
            rw [hmore] at herror
            cases herror
        | error fault' =>
            rw [hmore] at herror
            cases herror
            have hinner := hstatements _ (Nat.lt_succ_of_le hskip) hmore
            exact hinner.mono
              (List.Subset.trans (skipSeparators_subset rest)
                (List.subset_cons_self _ _))
      · cases herror
        have hhere : t :: rest ⊆ t :: rest := List.Subset.refl _
        exact locates_faultAt hhere

/-- Whatever is reported of a program stands at one of its tokens or at its
end. -/
theorem locates_statements {locals : List String} {ts : List Token}
    {fault : Fault} (herror : statements ctx locals ts = .error fault) :
    ctx.Locates ts fault := by
  by_cases hts : ts = []
  · subst hts
    rw [statements_nil] at herror
    cases herror
  · rw [statements_eq_read hts] at herror
    cases hread : Form.statement.read ctx locals ts maxNesting with
    | error fault' =>
        rw [hread] at herror
        cases herror
        exact locates_read ctx .statement locals ts maxNesting _ hread
    | ok out =>
        rw [hread] at herror
        have hlength := Form.length_lt_of_read (by simp) hread
        have hafter :=
          locates_afterStatement (fun inner hinner hmore =>
            locates_statements hmore) herror
        exact hafter.mono (subset_of_read hread)
termination_by ts.length

end Readers

end Reparse.Toy
