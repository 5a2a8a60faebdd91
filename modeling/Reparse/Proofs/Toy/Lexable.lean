import Reparse.Proofs.Toy.Program

/-!
# What a text that is read was written from

The printer spells the least integer although its digits without the sign are
no integer of the language. So not every text that is written is read; but
where the lexer gets through a text, it gets through the texts of all parts,
and the expression that the text was written from is writable.
-/

namespace Reparse.Toy

open Text

/-- The lexer gets through the text, at some place and before some
delimiter. -/
def Lexable (encoding : Encoding) (s : List Char) : Prop :=
  ∃ place rest lexed, Delimited rest ∧
    lexFrom encoding place (s ++ rest) = .ok lexed

section Parts

variable {encoding : Encoding} {c : Char} {s t : List Char} {kind : TokenKind}
variable {kinds : List TokenKind}

theorem lexable_nil : Lexable encoding [] :=
  ⟨.start, [], _, delimited_nil, lexFrom_nil⟩

theorem Lexable.left (hlexable : Lexable encoding (s ++ t))
    (ht : Delimited t) :
    Lexable encoding s := by
  obtain ⟨place, rest, lexed, hrest, hlex⟩ := hlexable
  rw [List.append_assoc] at hlex
  exact ⟨place, t ++ rest, lexed, ht.append hrest, hlex⟩

/-- Behind the words of a text the lexer gets through what is left. -/
theorem Lexes.lexable_right (hs : Lexes encoding s kinds) (ht : Delimited t)
    (hlexable : Lexable encoding (s ++ t)) : Lexable encoding t := by
  obtain ⟨place, rest, lexed, hrest, hlex⟩ := hlexable
  obtain ⟨toks, next, -, hwords⟩ := hs place (t ++ rest) (ht.append hrest)
  rw [List.append_assoc, hwords] at hlex
  obtain ⟨more, hmore, -⟩ := exists_of_map_eq_ok hlex
  exact ⟨next, rest, more, hrest, hmore⟩

theorem Lexable.of_mark (hlexable : Lexable encoding (c :: s))
    (hmark : markToken? c = some kind) :
    Lexable encoding s := by
  obtain ⟨place, rest, lexed, hrest, hlex⟩ := hlexable
  rw [List.cons_append, lexFrom_mark hmark] at hlex
  obtain ⟨more, hmore, -⟩ := exists_of_map_eq_ok hlex
  exact ⟨place.skip 1, rest, more, hrest, hmore⟩

theorem Lexable.of_skip (hlexable : Lexable encoding (c :: s))
    (hc : isSkipped c = true) :
    Lexable encoding s := by
  obtain ⟨place, rest, lexed, hrest, hlex⟩ := hlexable
  rw [List.cons_append, lexFrom_skipped hc] at hlex
  exact ⟨place.skip 1, rest, lexed, hrest, hlex⟩

theorem Lexable.of_parenthesize
    (hlexable : Lexable encoding (parenthesize s)) :
    Lexable encoding s := by
  have hinner : Lexable encoding (s ++ [')']) :=
    hlexable.of_mark (c := '(') rfl
  exact hinner.left (delimited_cons rfl)

theorem Lexable.of_atLeast {least : Nat} {w : Written}
    (hlexable : Lexable encoding (w.atLeast least)) :
    Lexable encoding w.text := by
  unfold Written.atLeast at hlexable
  split at hlexable
  · exact hlexable.of_parenthesize
  · exact hlexable

/-- Digits that give no token stop the lexer. -/
theorem not_lexable_of_numberToken {cause : Cause} (hdigits : IsDigits s)
    (htoken : numberToken s false = .error cause) : ¬ Lexable encoding s := by
  rintro ⟨place, rest, lexed, hrest, hlex⟩
  obtain ⟨hne, hdigits⟩ := hdigits
  obtain ⟨c, s, rfl⟩ := List.exists_cons_of_ne_nil hne
  have hc : isDigit c = true := hdigits c List.mem_cons_self
  have hbounds := isDigit_toNat hc
  have hmark : ∀ d : Char, d.toNat < 48 → c ≠ d :=
    fun d hd => ne_of_toNat_ne (by omega)
  have hcolon : c ≠ ':' :=
    ne_of_toNat_ne (by have : ':'.toNat = 58 := rfl; omega)
  have hpart := numberPart_append hdigits (.inl rfl) (.inl rfl) hrest
  simp only [List.append_nil, List.isEmpty_nil, Bool.not_true,
    Bool.or_self] at hpart
  rw [List.cons_append] at hlex hpart
  rw [lexFrom, if_neg (by simp [isSkipped_of_toNat (c := c) (by omega)]),
    if_neg (hmark '#' (by decide))] at hlex
  unfold scanToken at hlex
  rw [if_neg (hmark _ (by decide)), if_neg (hmark _ (by decide)),
    if_neg hcolon, if_pos hc] at hlex
  simp only [hpart, htoken] at hlex
  cases hlex

/-- The digits of the least integer exceed the greatest one. -/
theorem not_lexable_minValue :
    ¬ Lexable encoding (decimalInt Int64.minValue.toInt) := by
  have htext : decimalInt Int64.minValue.toInt = '-' :: decimal (2 ^ 63) := rfl
  have hread : readInt64? (decimal (2 ^ 63)) = none := by decide +kernel
  have htoken : numberToken (decimal (2 ^ 63)) false =
      .error (.integerTooLarge (String.ofList (decimal (2 ^ 63)))) := by
    simp only [numberToken, Bool.false_eq_true, if_false, hread]
  intro hlexable
  rw [htext] at hlexable
  exact not_lexable_of_numberToken (isDigits_decimal (2 ^ 63)) htoken
    (hlexable.of_mark rfl)

end Parts

/-- What may stand between two texts: it ends the first, and the lexer passes
it before the second. -/
structure Separates (encoding : Encoding) (sep : List Char) : Prop where
  delimited : ∀ s, Delimited (sep ++ s)
  lexable : ∀ s, Lexable encoding (sep ++ s) → Lexable encoding s

theorem separates_mark {encoding : Encoding} {c : Char} {kind : TokenKind}
    (hdelimiter : isDelimiter c = true) (hmark : markToken? c = some kind) :
    Separates encoding [c, ' '] where
  delimited _ := delimited_cons hdelimiter
  lexable s hlexable := by
    have hskipped : Lexable encoding (' ' :: s) := hlexable.of_mark hmark
    exact hskipped.of_skip rfl

namespace Expr

section Written

variable {encoding : Encoding} {locals locals' : List String} {e : Expr}
variable {es : List Expr}

theorem Outcome.spells {w : Written} (houtcome : e.Outcome locals)
    (hwrite : e.write locals = .ok (w, locals')) :
    e.failure? = none ∧ e.Spells locals w := by
  rcases houtcome with ⟨error, -, herror⟩ | ⟨hnone, found, hfound, hspells⟩
  · rw [hwrite] at herror
    cases herror
  · rw [hwrite] at hfound
    cases hfound
    exact ⟨hnone, hspells⟩

theorem OutcomeList.spells {lists : List (List Char)}
    (houtcome : OutcomeList locals es)
    (hwrite : writeList locals es = .ok (lists, locals')) :
    failureList? es = none ∧ SpellsList es locals lists := by
  rcases houtcome with ⟨error, -, herror⟩ | ⟨hnone, found, hfound, hspells⟩
  · rw [hwrite] at herror
    cases herror
  · rw [hwrite] at hfound
    cases hfound
    exact ⟨hnone, hspells⟩

end Written

section Lexable

variable {encoding : Encoding}

mutual

/-- An expression whose text the lexer gets through is writable. -/
theorem writable_of_lexable :
    ∀ {e : Expr} {locals locals' : List String} {w : Written},
    e.Named → e.write locals = .ok (w, locals') → Lexable encoding w.text →
      e.Writable
  | int value, _, _, _, _, hwrite, hlexable => by
      cases hwrite
      rintro rfl
      exact not_lexable_minValue hlexable
  | float _, _, _, _, _, _, _ | str _, _, _, _, _, _, _
  | bytes _, _, _, _, _, _, _
  | nil, _, _, _, _, _, _ | bool _, _, _, _, _, _, _ => trivial
  | sym _, _, _, _, hnamed, _, _ | var _, _, _, _, hnamed, _, _ => hnamed
  | assign name value, locals, _, _, hnamed, hwrite, hlexable => by
      obtain ⟨v, hvalue, rfl⟩ := write_assign_eq_ok_iff.mp hwrite
      have htext :
          Lexable encoding (name.toList ++ (" = ".toList ++ v.text)) := by
        rw [← List.append_assoc]
        exact hlexable
      have hmark :=
        (Lexes.name hnamed.1).lexable_right (delimited_cons rfl) htext
      have hlexable' : Lexable encoding v.text :=
        ((hmark.of_skip (c := ' ') rfl).of_mark (c := '=') rfl).of_skip
          (c := ' ') rfl
      exact ⟨hnamed.1, writable_of_lexable hnamed.2 hvalue hlexable'⟩
  | sequence items, _, _, _, hnamed, hwrite, hlexable => by
      obtain ⟨texts, hitems, rfl⟩ := write_sequence_eq_ok_iff.mp hwrite
      exact writableList_of_lexable (separates_mark rfl rfl) hnamed hitems
        hlexable.of_parenthesize
  | negate operand, _, _, _, hnamed, hwrite, hlexable => by
      obtain ⟨v, hoperand, rfl⟩ := write_negate_eq_ok_iff.mp hwrite
      have hoperand' := hlexable.of_mark (c := '-') rfl
      have hlexable' : Lexable encoding v.text := by
        split at hoperand'
        · exact hoperand'.of_parenthesize
        · exact hoperand'.of_atLeast
      exact writable_of_lexable (e := operand) hnamed hoperand hlexable'
  | infixed left op right, locals, _, _, hnamed, hwrite, hlexable => by
      obtain ⟨l, between, hleft, r, hright, rfl⟩ :=
        write_infixed_eq_ok_iff.mp hwrite
      have htext : Lexable encoding (l.atLeast op.tier.level ++
          ([' ', op.sign, ' '] ++ r.atLeast (op.tier.level + 1))) := by
        rw [← List.append_assoc]
        exact hlexable
      have hleftLexable := (htext.left (delimited_cons rfl)).of_atLeast
      have hleftWritable := writable_of_lexable hnamed.1 hleft hleftLexable
      -- The words of the left operand take the lexer to the operator.
      have hspells :=
        ((outcome_of_writable locals hleftWritable).spells hleft).2
      rw [atLeast_eq hspells.level] at htext
      have hmark :=
        (hspells.lexes encoding).wrap.lexable_right (delimited_cons rfl) htext
      have hsign : markToken? op.sign = some op.token := by cases op <;> rfl
      have hrightLexable : Lexable encoding r.text :=
        (((hmark.of_skip (c := ' ') rfl).of_mark hsign).of_skip (c := ' ')
          rfl).of_atLeast
      exact ⟨hleftWritable, writable_of_lexable hnamed.2 hright hrightLexable⟩
  | call name args, _, _, _, hnamed, hwrite, hlexable => by
      obtain ⟨texts, hargs, rfl⟩ := write_call_eq_ok_iff.mp hwrite
      refine ⟨hnamed.1,
        writableList_of_lexable (separates_mark (c := ',') rfl rfl) hnamed.2
          hargs ?_⟩
      dsimp only at hlexable
      split at hlexable
      · next hbare =>
          have hempty : texts = [] := by
            simp only [Bool.and_eq_true, List.isEmpty_iff] at hbare
            exact hbare.1
          rw [hempty]
          exact lexable_nil
      · have hlist :=
          (Lexes.name hnamed.1).lexable_right (delimited_cons rfl) hlexable
        exact hlist.of_parenthesize
  | foreign _, _, _, _, _, hwrite, _ => by cases hwrite

theorem writableList_of_lexable :
    ∀ {es : List Expr} {locals locals' : List String}
    {lists : List (List Char)} {sep : List Char},
      Separates encoding sep → NamedList es →
    writeList locals es = .ok (lists, locals') →
      Lexable encoding (sep.intercalate lists) →
    WritableList es
  | [], _, _, _, _, _, _, _, _ => trivial
  | e :: es, locals, _, _, sep, hsep, hnamed, hwrite, hlexable => by
      obtain ⟨v, between, hfirst, lists, hmore, rfl⟩ :=
        writeList_cons_eq_ok_iff.mp hwrite
      cases lists with
      | nil =>
          rw [List.intercalate_singleton] at hlexable
          exact ⟨writable_of_lexable hnamed.1 hfirst hlexable,
            writableList_of_lexable hsep hnamed.2 hmore lexable_nil⟩
      | cons list lists =>
          rw [List.intercalate_cons_cons, List.append_assoc] at hlexable
          have hdelimited := hsep.delimited (sep.intercalate (list :: lists))
          have hwritable :=
            writable_of_lexable hnamed.1 hfirst (hlexable.left hdelimited)
          have hspells :=
            ((outcome_of_writable locals hwritable).spells hfirst).2
          have hrest :=
            (hspells.lexes encoding).lexable_right hdelimited hlexable
          exact ⟨hwritable,
            writableList_of_lexable hsep hnamed.2 hmore (hsep.lexable _ hrest)⟩

end

end Lexable

end Expr

/-- The statements of a program that the lexer gets through are writable. -/
theorem writableList_of_lex {encoding : Encoding} {es : List Expr}
    {locals locals' : List String} {lists : List (List Char)}
    {comments : List Comment} {lexed : Lexed} (hnamed : Expr.NamedList es)
    (hwrite : Expr.writeList locals es = .ok (lists, locals'))
    (hlex : lex encoding
      (joinWith ['\n'] (lists ++ comments.map commentLine)) = .ok lexed) :
    Expr.WritableList es := by
  have hfeed : Separates encoding ['\n'] := by
    refine ⟨fun s => delimited_cons rfl, ?_⟩
    rintro s ⟨place, rest, lexed, hrest, hlex⟩
    rw [List.append_assoc, List.singleton_append, lexFrom_lineFeed] at hlex
    obtain ⟨more, hmore, -⟩ := exists_of_map_eq_ok hlex
    exact ⟨place.newLine, rest, more, hrest, hmore⟩
  apply Expr.writableList_of_lexable hfeed hnamed hwrite
  cases lists with
  | nil => exact lexable_nil
  | cons line lines =>
      rw [joinWith_append] at hlex
      exact ⟨.start, moreLines (comments.map commentLine), lexed,
        delimited_moreLines _, hlex⟩

end Reparse.Toy
