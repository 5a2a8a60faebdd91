import Reparse.Proofs.Toy.Fragments

/-!
# Rows without a pair of parentheses

Where a pair of parentheses is taken out of a row of fragments, the others
mostly stay what they are.  But a call begins with a word that its parenthesis
ended, and without it the word runs on into the first argument: a word or
digits become part of it, an exponent falls apart, and a fraction is left that
nothing can begin with.  Even so the tokens that are left weigh less than all
of them did.
-/

namespace Reparse.Toy

open Text

/-! ## Words that run on -/

theorem endsOperand_wordToken (s : List Char) :
    (wordToken s).endsOperand = true := by
  unfold wordToken
  split <;> rfl

theorem wordToken_ne_rightParen (s : List Char) :
    wordToken s ≠ .rightParen := by
  unfold wordToken
  split <;> nofun

theorem weight_wordToken_le (s : List Char) : (wordToken s).weight ≤ 2 := by
  unfold wordToken
  split <;> simp [TokenKind.weight]

theorem isApart_wordToken (s : List Char) : (wordToken s).IsApart := by
  unfold wordToken
  split <;> exact ⟨nofun, id, nofun⟩

theorem isWordChar_of_isDigit {c : Char} (hc : isDigit c = true) :
    isWordChar c = true := by
  simp [isWordChar, hc]

theorem isWordChar_of_markToken? {c : Char} {kind : TokenKind}
    (hmark : markToken? c = some kind) :
    isWordChar c = false := by
  unfold markToken? at hmark
  split at hmark <;> first
    | rfl
    | cases hmark

/-- What becomes of a word and a fragment when nothing is left between them. -/
inductive Glued (s : List Char) (p : Fragment) : Prop where
  /-- The fragment still begins where the word ends. -/
  | apart (hallows : ∀ c ∈ p.text.head?, (Fragment.word s).allows c = true)
  /-- Their characters are other fragments, which weigh no more. -/
  | fragments (qs : List Fragment) (htexts : texts qs = s ++ p.text)
    (hsound : SoundRow qs)
      (hrow : ∀ rest, (∀ c ∈ rest.head?, p.allows c = true) → Row qs rest)
      (hweight : ∀ lead more, weigh Lead.isMinus lead (kinds qs ++ more) ≤
        (wordToken s).weight +
          weigh Lead.isMinus .other (p.kind?.toList ++ more))
  /-- The lexer does not get through their characters. -/
  | never (hnever : ∀ encoding place rest lexed,
      lexFrom encoding place (s ++ p.text ++ rest) ≠ .ok lexed)

section Glue

variable {s t rest : List Char} {p : Fragment} {kind : TokenKind}

theorem sound_word_append (hs : (Fragment.word s).Sound)
    (ht : ∀ c ∈ t, isWordChar c = true) :
    (Fragment.word (s ++ t)).Sound := by
  obtain ⟨c, r, rfl, hc, hr⟩ := hs
  refine ⟨c, r ++ t, rfl, hc, ?_⟩
  rw [List.all_append, hr, Bool.true_and, List.all_eq_true]
  exact ht

theorem allows_word_of_ends {c : Char} (hc : endsFragment c = true)
    (s : List Char) :
    (Fragment.word s).allows c = true :=
  Fragment.allows_of_ends nofun hc

/-- Only characters of the word follow on it. -/
theorem Glued.word (hs : (Fragment.word s).Sound)
    (ht : ∀ c ∈ p.text, isWordChar c = true)
    (hallows : ∀ c, p.allows c = true → (Fragment.word s).allows c = true)
    (hkind : p.kind? = some kind) (hends : kind.endsOperand = true)
    (hclose : kind ≠ .rightParen) : Glued s p := by
  refine .fragments [.word (s ++ p.text)] (List.append_nil _)
    (List.forall_mem_singleton.mpr (sound_word_append hs ht))
    (fun rest hrest => ⟨fun c hc => hallows c (hrest c hc), trivial⟩)
      fun lead more => ?_
  have hword : kinds [.word (s ++ p.text)] = [wordToken (s ++ p.text)] := rfl
  have hglued := weight_wordToken_le (s ++ p.text)
  have hleft :=
    one_le_weight (endsOperand_wordToken s) (wordToken_ne_rightParen s)
  have hright := one_le_weight hends hclose
  rw [hword, hkind, List.singleton_append, Option.toList_some,
    List.singleton_append,
    weigh_operand (endsOperand_wordToken _), weigh_operand hends]
  omega

/-- The minus of an exponent ends the word, and leaves an integer. -/
theorem Glued.exponent {whole ds : List Char} {value : Binary64}
    (hs : (Fragment.word s).Sound) (hwhole : IsDigits whole)
    (hds : IsDigits ds) :
    Glued s (.float whole [] ('e' :: '-' :: ds) value) := by
  have hletter : ∀ c ∈ whole ++ ['e'], isWordChar c = true := by
    intro c hc
    rcases List.mem_append.mp hc with hc | hc
    · exact isWordChar_of_isDigit (hwhole.2 c hc)
    · obtain rfl := List.mem_singleton.mp hc
      rfl
  refine .fragments [.word (s ++ (whole ++ ['e'])), .mark '-',
    .int ds] ?_ ?_ ?_ fun lead more => ?_
  · simp [texts, Fragment.text]
  · intro q hq
    simp only [List.mem_cons, List.not_mem_nil, or_false] at hq
    rcases hq with rfl | rfl | rfl
    · exact sound_word_append hs hletter
    · rfl
    · exact hds
  · refine fun rest hrest => ⟨?_, fun _ _ => rfl, hrest, trivial⟩
    rintro c hc
    obtain rfl : '-' = c := Option.some.inj hc
    rfl
  · have hkinds : kinds [.word (s ++ (whole ++ ['e'])), .mark '-', .int ds] =
        [wordToken (s ++ (whole ++ ['e'])), .minus,
          .int ((readInt64? ds).getD 0)] := rfl
    have hglued := weight_wordToken_le (s ++ (whole ++ ['e']))
    have hleft :=
      one_le_weight (endsOperand_wordToken s) (wordToken_ne_rightParen s)
    have hint : (TokenKind.int ((readInt64? ds).getD 0)).weight ≤ 2 := by
      simp only [TokenKind.weight]
      split <;> omega
    have hfloat : 4 ≤ (TokenKind.float value).weight := by
      simp only [TokenKind.weight]
      split <;> omega
    have hminus : TokenKind.minus.weight = 1 := rfl
    rw [hkinds, Fragment.kind?, Option.toList_some, List.singleton_append]
    simp only [List.cons_append, List.nil_append]
    rw [weigh_operand (endsOperand_wordToken _), weigh_cons_of_ne (by decide),
      weigh_operand rfl,
      weigh_operand rfl]
    omega

/-- No token begins with the point of a fraction. -/
theorem Glued.fraction {whole fraction exponent : List Char} {value : Binary64}
    (hs : (Fragment.word s).Sound) (hwhole : IsDigits whole)
    (hfraction : IsFraction fraction) (hne : fraction ≠ []) :
    Glued s (.float whole fraction exponent value) := by
  refine .never fun encoding place rest lexed hlex => ?_
  obtain ⟨ds, -, rfl⟩ := hfraction.resolve_left hne
  have hword := sound_word_append hs fun c hc =>
    isWordChar_of_isDigit (hwhole.2 c hc)
  have hpoint : ∀ c ∈ ('.' :: (ds ++ exponent ++ rest)).head?,
      (Fragment.word (s ++ whole)).allows c = true := by
    rintro c hc
    obtain rfl : '.' = c := Option.some.inj hc
    rfl
  have htext :
      s ++ (Fragment.float whole ('.' :: ds) exponent value).text ++ rest =
      (Fragment.word (s ++ whole)).text ++
        '.' :: (ds ++ exponent ++ rest) := by
    simp [Fragment.text]
  rw [htext] at hlex
  obtain ⟨-, next, lexed', -, hlex', -⟩ :=
    hword.readsPast hpoint place lexed hlex
  rw [lexFrom, if_neg (by decide), if_neg (by decide)] at hlex'
  cases hlex'

theorem glued (hs : (Fragment.word s).Sound) (hp : p.Sound) : Glued s p := by
  cases p with
  | blank =>
      apply Glued.apart
      rintro c hc
      obtain rfl : ' ' = c := Option.some.inj hc
      rfl
  | mark d =>
      apply Glued.apart
      rintro c hc
      obtain rfl : d = c := Option.some.inj hc
      rw [Fragment.allows]
      by_cases hfeed : d = '\n'
      · rw [hfeed]
        rfl
      · have hmark : (markToken? d).isSome = true := by
          simpa [Fragment.Sound, Fragment.kind?, hfeed] using hp
        obtain ⟨kind, hkind⟩ := Option.isSome_iff_exists.mp hmark
        rw [isWordChar_of_markToken? hkind]
        rfl
  | word t =>
      obtain ⟨c, r, rfl, hc, hr⟩ := hp
      have hchars : ∀ d ∈ c :: r, isWordChar d = true := by
        rw [← List.all_eq_true, List.all_cons, isWordChar_of_isWordStart hc,
          hr]
        rfl
      exact .word hs hchars (fun _ hd => hd) rfl (endsOperand_wordToken _)
        (wordToken_ne_rightParen _)
  | int digits =>
      exact .word hs (fun c hc => isWordChar_of_isDigit (hp.2 c hc))
        (fun c hc => allows_word_of_ends hc s) rfl rfl (by simp)
  | float whole fraction exponent value =>
      obtain ⟨hwhole, hfraction, hexponent, hmarked, -⟩ := hp
      by_cases hne : fraction = []
      · subst hne
        obtain ⟨ds, hds, rfl | rfl⟩ :=
          hexponent.resolve_left (hmarked.resolve_left fun hne => hne rfl)
        · have hchars : ∀ c ∈ (Fragment.float whole [] ('e' :: ds) value).text,
              isWordChar c = true := by
            intro c hc
            simp only [Fragment.text, List.append_nil, List.mem_append,
              List.mem_cons] at hc
            rcases hc with hc | rfl | hc
            · exact isWordChar_of_isDigit (hwhole.2 c hc)
            · rfl
            · exact isWordChar_of_isDigit (hds.2 c hc)
          exact .word hs hchars (fun c hc =>
            allows_word_of_ends hc s) rfl rfl (by simp)
        · exact .exponent hs hwhole hds
      · exact .fraction hs hwhole hfraction hne
  | quoted t kind =>
      obtain ⟨⟨r, rfl | rfl⟩, -⟩ := hp
      · apply Glued.apart
        rintro c hc
        obtain rfl : '"' = c := Option.some.inj hc
        rfl
      · apply Glued.apart
        rintro c hc
        obtain rfl : ':' = c := Option.some.inj hc
        rfl
  | comment t =>
      apply Glued.apart
      rintro c hc
      obtain rfl : '#' = c := Option.some.inj hc
      rfl

end Glue

/-! ## Rows without a pair of parentheses -/

section Cuts

variable {encoding : Encoding} {front middle back : List Fragment}
variable {lexed : Lexed}

theorem allows_paren_cases {p : Fragment} (hallows : p.allows '(' = true) :
    (∀ c, p.allows c = true) ∨ ∃ s, p = .word s := by
  cases p with
  | blank => exact .inl fun _ => rfl
  | mark c =>
      refine .inl fun d => ?_
      rw [Fragment.allows, Bool.or_eq_true] at hallows ⊢
      exact .inl (hallows.resolve_right (by decide))
  | word s => exact .inr ⟨s, rfl⟩
  | int _ | float _ _ _ _ | quoted _ _ | comment _ => cases hallows

theorem Row.without_close (hrow : Row middle (')' :: texts back))
    (hends : ∀ c ∈ (texts back).head?, endsFragment c = true) :
    Row middle (texts back) := by
  apply hrow.replace
  intro p _ hclose c hc
  apply Fragment.allows_of_ends _ (hends c hc)
  rintro s rfl
  cases hclose ')' rfl

theorem head?_append_of_ne_nil {s : List Char} (hs : s ≠ [])
    (t u : List Char) :
    (s ++ t).head? = (s ++ u).head? := by
  obtain ⟨c, s, rfl⟩ := List.exists_cons_of_ne_nil hs
  rfl

/-- All that matters of what follows a row is whether its last fragment allows
it. -/
theorem Row.concat {p : Fragment} {rest rest' : List Char}
    (hrow : Row (front ++ [p]) rest) (hp : p.Sound)
    (hallows : ∀ c ∈ rest'.head?, p.allows c = true) :
    Row (front ++ [p]) rest' := by
  have htext : texts [p] ≠ [] := by
    rw [texts_cons]
    exact List.append_ne_nil_of_left_ne_nil (text_ne_nil hp) _
  obtain ⟨hfront, -⟩ := row_append_iff.mp hrow
  exact row_append_iff.mpr
    ⟨hfront.congr (head?_append_of_ne_nil htext _ _), hallows, trivial⟩

/-- Where the fragments stay those of a row, the tokens are the others. -/
theorem weigh_lt_of_row {place : Place} (hfront : SoundRow front)
    (hmiddle : SoundRow middle) (hback : SoundRow back)
    (hrow : Row front (texts (middle ++ back)))
    (htail : Row (middle ++ back) []) (hbalanced : Balanced (kinds middle))
    (hspares : ¬ ((Lead.other.after (kinds front)).isMinus = true ∧
      closesSigned (kinds middle ++ .rightParen :: kinds back) = true))
    (hlex : lexFrom encoding place (texts (front ++ (middle ++ back))) =
      .ok lexed) :
    weigh Lead.isMinus .other (lexed.tokens.map Token.kind) <
      weigh Lead.isMinus .other
        (kinds front ++ .leftParen ::
          (kinds middle ++ .rightParen :: kinds back)) := by
  rw [hrow.kinds_append_eq hfront (SoundRow.append_iff.mpr ⟨hmiddle, hback⟩)
    htail hlex, kinds_append]
  exact hbalanced.weigh_lt hspares

/-- Where a word runs on into the fragment behind its parenthesis, the new
tokens weigh less. -/
theorem weigh_lt_of_glued {place : Place} {p : Fragment} {s : List Char}
    {qs more : List Fragment} (hfront : SoundRow front) (hqs : SoundRow qs)
    (hmore : SoundRow more) (hrow : Row front (texts (qs ++ more)))
    (htail : Row (qs ++ more) [])
    (hkinds : kinds middle ++ kinds back = p.kind?.toList ++ kinds more)
    (hweight : ∀ lead more, weigh Lead.isMinus lead (kinds qs ++ more) ≤
      (wordToken s).weight +
        weigh Lead.isMinus .other (p.kind?.toList ++ more))
    (hbalanced : Balanced (kinds middle))
    (hlex : lexFrom encoding place (texts (front ++ (qs ++ more))) =
      .ok lexed) :
    weigh Lead.isMinus .other (lexed.tokens.map Token.kind) <
      weigh Lead.isMinus .other (kinds front ++
        wordToken s :: .leftParen ::
          (kinds middle ++ .rightParen :: kinds back)) := by
  rw [hrow.kinds_append_eq hfront (SoundRow.append_iff.mpr ⟨hqs, hmore⟩) htail
    hlex, kinds_append]
  apply weigh_append_lt (isApart_wordToken s)
  rw [weigh_operand (endsOperand_wordToken s),
    weigh_paren fun hspared => by cases hspared.1]
  have hglued := hweight (Lead.other.after (kinds front)) (kinds more)
  have hclose := hbalanced.weigh_close_le .other (kinds back)
  rw [hkinds] at hclose
  omega

/-- The fragments of a row weigh less without a pair of parentheses that is not
spared, whatever tokens they are read as then. -/
theorem weigh_lt_of_cut {place : Place}
    (hsound : SoundRow (front ++ .mark '(' :: (middle ++ .mark ')' :: back)))
    (hrow : Row (front ++ .mark '(' :: (middle ++ .mark ')' :: back)) [])
    (hbalanced : Balanced (kinds middle))
    (hspares : ¬ ((Lead.other.after (kinds front)).isMinus = true ∧
      closesSigned (kinds middle ++ .rightParen :: kinds back) = true))
    (hlex : lexFrom encoding place (texts (front ++ (middle ++ back))) =
      .ok lexed) :
    weigh Lead.isMinus .other (lexed.tokens.map Token.kind) <
      weigh Lead.isMinus .other
        (kinds front ++ .leftParen ::
          (kinds middle ++ .rightParen :: kinds back)) := by
  obtain ⟨hfront, hothers⟩ := SoundRow.append_iff.mp hsound
  obtain ⟨hmiddle, hlast⟩ :=
    SoundRow.append_iff.mp (List.forall_mem_cons.mp hothers).2
  have hback : SoundRow back := (List.forall_mem_cons.mp hlast).2
  obtain ⟨hopen, -, hinner⟩ := row_append_iff.mp hrow
  obtain ⟨hmiddleRow, hends, hbackRow⟩ := row_append_iff.mp hinner
  rw [List.append_nil] at hopen hmiddleRow hends
  have htail : Row (middle ++ back) [] := by
    rw [row_append_iff, List.append_nil]
    exact ⟨hmiddleRow.without_close hends, hbackRow⟩
  have htailSound : SoundRow (middle ++ back) :=
    SoundRow.append_iff.mpr ⟨hmiddle, hback⟩
  have hplain : Row front (texts (middle ++ back)) → _ := fun hrow =>
    weigh_lt_of_row hfront hmiddle hback hrow htail hbalanced hspares hlex
  rcases List.eq_nil_or_concat' front with rfl | ⟨before, q, rfl⟩
  · exact hplain trivial
  obtain ⟨hbefore, hq⟩ := SoundRow.append_iff.mp hfront
  have hq : q.Sound := List.forall_mem_singleton.mp hq
  have hparen : q.allows '(' = true := (row_append_iff.mp hopen).2.1 '(' rfl
  -- A parenthesis opens behind a word, or behind what allows any character.
  rcases allows_paren_cases hparen with hall | ⟨s, rfl⟩
  · exact hplain (hopen.concat hq fun c _ => hall c)
  · cases hparts : middle ++ back with
    | nil =>
        rw [hparts] at hplain
        exact hplain (hopen.concat hq fun _ hc => nomatch hc)
    | cons p more =>
        rw [hparts] at hplain htail htailSound hlex
        obtain ⟨hp, hmore⟩ := List.forall_mem_cons.mp htailSound
        have hword : s ≠ [] := text_ne_nil hq
        have hfirst : ∀ t, Row before (s ++ t) := fun t =>
          (row_append_iff.mp hopen).1.congr (by
            rw [texts_cons, List.append_assoc]
            exact head?_append_of_ne_nil hword _ t)
        have htext : texts (before ++ [.word s] ++ p :: more) =
            texts before ++ (s ++ (p.text ++ texts more)) := by
          simp [texts, Fragment.text]
        rw [htext] at hlex
        cases glued hq hp with
        | apart hallows =>
            apply hplain
            apply hopen.concat hq
            rw [texts_cons]
            obtain ⟨c, t, htext⟩ := List.exists_cons_of_ne_nil (text_ne_nil hp)
            rw [htext] at hallows ⊢
            exact hallows
        | fragments qs htexts hqs hqsRow hweight =>
            have hglued :
                s ++ (p.text ++ texts more) = texts (qs ++ more) := by
              rw [texts_append, htexts, List.append_assoc]
            have hkinds :
                kinds middle ++ kinds back = p.kind?.toList ++ kinds more := by
              rw [← kinds_append, hparts, kinds_cons]
            have hrowed : Row (qs ++ more) [] := by
              rw [row_append_iff, List.append_nil]
              refine ⟨hqsRow _ ?_, htail.2⟩
              rw [← List.append_nil (texts more)]
              exact htail.1
            rw [hglued, ← texts_append] at hlex
            have hlt :=
              weigh_lt_of_glued hbefore hqs hmore (hglued ▸ hfirst _)
                hrowed hkinds hweight hbalanced hlex
            have hwords :
                kinds (before ++ [.word s]) = kinds before ++ [wordToken s] :=
              kinds_append before _
            rw [hwords, List.append_assoc]
            exact hlt
        | never hnever =>
            -- Behind the fragments in front, the lexer would go on with the
            -- word.
            obtain ⟨-, next, lexed', -, hlex', -⟩ :=
              (hfirst (p.text ++ texts more)).readsPast hbefore place
                lexed hlex
            rw [← List.append_assoc] at hlex'
            exact absurd hlex' (hnever _ _ _ _)

end Cuts

end Reparse.Toy
