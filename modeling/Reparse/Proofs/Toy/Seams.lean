import Reparse.Proofs.Toy.Layout

/-!
# Texts put together

A text reads as the same tokens and comments wherever it stands, as long as
nothing runs on into it or out of it.  What stands in front of it moves the
places, by its characters and its lines; a line feed behind it ends its last
token or comment.  So two texts with a line feed between them read as the
tokens of the first, a separator and the tokens of the second.
-/

namespace Reparse

/-- The range in a text with this one put in front. -/
def Span.behind (front : List Char) (span : Span) : Span :=
  ⟨span.start + front.length, span.stop + front.length,
    span.line + front.count '\n'⟩

def Comment.behind (front : List Char) (comment : Comment) : Comment :=
  { comment with span := comment.span.map (Span.behind front) }

namespace Toy

open Text

def Place.behind (front : List Char) (p : Place) : Place :=
  ⟨p.offset + front.length, p.line + front.count '\n', p.column⟩

def Token.behind (front : List Char) (t : Token) : Token :=
  ⟨t.kind, t.start.behind front, t.stop + front.length⟩

def Lexed.behind (front : List Char) (lexed : Lexed) : Lexed :=
  ⟨lexed.tokens.map (Token.behind front),
    lexed.comments.map (Comment.behind front),
    lexed.stop.behind front⟩

def Lexed.join (first second : Lexed) : Lexed :=
  ⟨first.tokens ++ second.tokens, first.comments ++ second.comments,
    second.stop⟩

/-- The text is at its end, or a line feed follows. -/
def AtLineEnd (rest : List Char) : Prop :=
  ∀ c ∈ rest.head?, c = '\n'

/-! ## Places behind a text -/

section Places

variable {front s : List Char} {p : Place}

theorem behind_skip (n : Nat) :
    (p.skip n).behind front = (p.behind front).skip n := by
  simp only [Place.behind, Place.skip, Place.mk.injEq, and_true]
  omega

theorem behind_newLine :
    p.newLine.behind front = (p.behind front).newLine := by
  simp only [Place.behind, Place.newLine, Place.mk.injEq, and_true]
  omega

theorem behind_walk (s : List Char) :
    (p.walk s).behind front = (p.behind front).walk s := by
  induction s generalizing p with
  | nil => rfl
  | cons c s ih =>
      rw [Place.walk_cons, Place.walk_cons, ih]
      by_cases hc : c = '\n'
      · rw [hc, Place.step_lineFeed, Place.step_lineFeed, behind_newLine]
      · rw [Place.step_of_ne hc, Place.step_of_ne hc, behind_skip]

theorem Place.behind_nil : p.behind [] = p := rfl

theorem comment_behind_nil (comment : Comment) :
    comment.behind [] = comment := by
  obtain ⟨text, span⟩ := comment
  cases span <;> rfl

theorem Lexed.behind_nil (lexed : Lexed) : lexed.behind [] = lexed := by
  have htokens : lexed.tokens.map (Token.behind []) = lexed.tokens :=
    List.map_id _
  have hcomments : lexed.comments.map (Comment.behind []) = lexed.comments :=
    (List.map_congr_left fun comment _ =>
      comment_behind_nil comment).trans (List.map_id _)
  unfold Lexed.behind
  rw [htokens, hcomments, Place.behind_nil]

/-- Behind a line feed a text begins as at the start, but for what stands in
front. -/
theorem walk_lineFeed (s : List Char) :
    Place.start.walk (s ++ ['\n']) = Place.start.behind (s ++ ['\n']) := by
  have hoffset := offset_walk .start (s ++ ['\n'])
  have hline := line_walk .start (s ++ ['\n'])
  have hcolumn : (Place.start.walk (s ++ ['\n'])).column = 1 := by
    rw [Place.walk_append, Place.walk_cons, Place.step_lineFeed]
    rfl
  generalize Place.start.walk (s ++ ['\n']) = p at hoffset hline hcolumn
  obtain ⟨offset, line, column⟩ := p
  simp only [Place.behind, Place.mk.injEq]
  exact ⟨hoffset, hline, hcolumn⟩

end Places

/-! ## Tokens in front of a line feed -/

section Scans

variable {encoding : Encoding} {front s name rest : List Char} {p next : Place}
variable {c : Char}
variable {kind : TokenKind}

theorem AtLineEnd.stops {q : Char → Bool} (hrest : AtLineEnd rest)
    (hfeed : q '\n' = false) :
    ∀ c ∈ rest.head?, q c = false := by
  intro c hc
  rw [hrest c hc, hfeed]

theorem takeWhile_append {q : Char → Bool}
    (hrest : ∀ c ∈ rest.head?, q c = false) (s : List Char) :
    (s ++ rest).takeWhile q = s.takeWhile q := by
  induction s with
  | nil => simpa using takeWhile_run (s := []) (List.forall_mem_nil _) hrest
  | cons c s ih => simp only [List.cons_append, List.takeWhile_cons, ih]

theorem dropWhile_append {q : Char → Bool}
    (hrest : ∀ c ∈ rest.head?, q c = false) (s : List Char) :
    (s ++ rest).dropWhile q = s.dropWhile q ++ rest := by
  induction s with
  | nil => simpa using dropWhile_run (s := []) (List.forall_mem_nil _) hrest
  | cons c s ih =>
      rw [List.cons_append, List.dropWhile_cons, List.dropWhile_cons, ih]
      split <;> rfl

theorem AtLineEnd.cases (hrest : AtLineEnd rest) :
    rest = [] ∨ ∃ more, rest = '\n' :: more := by
  cases rest with
  | nil => exact .inl rfl
  | cons c more =>
      obtain rfl := hrest c rfl
      exact .inr ⟨more, rfl⟩

theorem fractionPart_before (hrest : AtLineEnd rest) (s : List Char) :
    fractionPart (s ++ rest) = fractionPart s := by
  rcases hrest.cases with rfl | ⟨more, rfl⟩
  · rw [List.append_nil]
  have hfeed : isDigit '\n' = false := rfl
  match s with
  | [] => rfl
  | [c] => by_cases hc : c = '.' <;> simp [fractionPart, hc, hfeed]
  | c :: d :: s =>
      by_cases hc : c = '.'
      · simp only [hc, List.cons_append, fractionPart,
          takeWhile_append (hrest.stops (q := isDigit) hfeed)]
      · simp [fractionPart, hc]

theorem exponentPart_before (hrest : AtLineEnd rest) (s : List Char) :
    exponentPart (s ++ rest) = exponentPart s := by
  rcases hrest.cases with rfl | ⟨more, rfl⟩
  · rw [List.append_nil]
  have hfeed : isDigit '\n' = false := rfl
  have htake := takeWhile_append (hrest.stops (q := isDigit) hfeed)
  match s with
  | [] => cases more <;> simp [exponentPart]
  | [e] => simp [exponentPart, hfeed]
  | [e, c] => simp [exponentPart, hfeed]
  | e :: c :: d :: s =>
      have hmore :
          (d :: (s ++ '\n' :: more)).takeWhile isDigit =
            (d :: s).takeWhile isDigit :=
        htake (d :: s)
      simp only [List.cons_append, exponentPart, hmore, htake]

theorem Leads.drop_append {t : List Char} (ht : Leads t s) (rest : List Char) :
    (s ++ rest).drop t.length = s.drop t.length ++ rest := by
  obtain ⟨⟨after, rfl⟩, -⟩ := ht
  rw [List.append_assoc, List.drop_left, List.drop_left]

theorem numberPart_before (hrest : AtLineEnd rest) (s : List Char) :
    numberPart (s ++ rest) = numberPart s := by
  have hwhole : Leads (s.takeWhile isDigit) s := leads_takeWhile rfl
  have hfraction := hwhole.append (fractionPart_leads _)
  have htake : (s ++ rest).takeWhile isDigit = s.takeWhile isDigit :=
    takeWhile_append (hrest.stops rfl) s
  have hdrop := hfraction.drop_append rest
  rw [List.length_append] at hdrop
  simp only [numberPart, htake, hwhole.drop_append, fractionPart_before hrest,
    hdrop,
    exponentPart_before hrest]

theorem scanSymbol?_before {left : Suffix s} (hrest : AtLineEnd rest)
    (hscan : scanSymbol? s = some (name, left)) :
    ∃ left' : Suffix (s ++ rest), left'.val = left.val ++ rest ∧
      scanSymbol? (s ++ rest) = some (name, left') := by
  have hstops := hrest.stops (q := isWordChar) rfl
  unfold scanSymbol? at hscan
  split at hscan
  · cases hscan
  next c r =>
  split at hscan
  · next hword =>
      cases hscan
      refine ⟨((Suffix.dropWhile isWordChar (r ++ rest)).after c).weaken,
        dropWhile_append hstops r, ?_⟩
      simp only [List.cons_append, scanSymbol?, hword, if_true,
        takeWhile_append hstops]
  next hword =>
  split at hscan
  · next hminus =>
      subst hminus
      split at hscan
      · next r =>
          cases hscan
          exact ⟨((Rest.tail '@' (r ++ rest)).after '-').weaken, rfl, rfl⟩
      · next hat =>
          cases hscan
          refine ⟨(Rest.tail '-' (r ++ rest)).weaken, rfl, ?_⟩
          have hnone : ∀ after, r ++ rest ≠ '@' :: after := by
            intro after happend
            cases r with
            | nil =>
                exact absurd (hrest '@'
                  (by rw [← List.nil_append rest, happend]; rfl)) (by decide)
            | cons d r =>
                obtain ⟨rfl, -⟩ := List.cons.inj happend
                exact hat r rfl
          simp only [List.cons_append, scanSymbol?, hword, Bool.false_eq_true,
            if_false, if_true]
  · split at hscan
    · next hminus hoperator =>
        cases hscan
        refine ⟨(Rest.tail c (r ++ rest)).weaken, rfl, ?_⟩
        simp only [List.cons_append, scanSymbol?, hword, hminus, hoperator,
          Bool.false_eq_true, if_false, if_true]
    · cases hscan

theorem scanned_between {pieces : List Piece} {left : List Char}
    (front rest : List Char)
    (hscan : scanned encoding p s = .ok (pieces, next, left)) :
    scanned encoding (p.behind front) (s ++ rest) =
      .ok (pieces, next.behind front, left ++ rest) := by
  obtain ⟨body, rfl, hbody, rfl⟩ := scanned_eq_ok_iff.mp hscan
  refine scanned_eq_ok_iff.mpr ⟨body, by simp, hbody, ?_⟩
  rw [behind_skip, behind_walk]

theorem scanString_eq_ok {pieces : List Piece} {left : List Char}
    (hscan : scanned encoding p s = .ok (pieces, next, left)) :
    ∃ found : Rest s, found.val = left ∧
      scanString encoding p s = .ok (pieces, next, found) := by
  obtain ⟨⟨found, place, after⟩, hstring, heq⟩ := exists_of_map_eq_ok hscan
  cases heq
  exact ⟨after, rfl, hstring⟩

/-- A token is taken off a text alike between other texts. -/
theorem scanToken_between {left : Suffix s} (front : List Char)
    (hrest : AtLineEnd rest)
    (hscan : scanToken encoding p c s = .ok (kind, next, left)) :
    ∃ left' : Suffix (s ++ rest), left'.val = left.val ++ rest ∧
      scanToken encoding (p.behind front) c (s ++ rest) =
        .ok (kind, next.behind front, left') := by
  have hword : ∀ c ∈ rest.head?, isWordChar c = false := hrest.stops rfl
  unfold scanToken at hscan ⊢
  split at hscan
  · next hfeed =>
      cases hscan
      refine ⟨⟨s ++ rest, Nat.le_refl _⟩, rfl, ?_⟩
      rw [if_pos hfeed, behind_newLine]
  next hfeed =>
  rw [if_neg hfeed]
  split at hscan
  · next hquote =>
      split at hscan
      · next pieces place after hafter hstring =>
          cases hscan
          have hscanned :
              scanned encoding (p.skip 1) s = .ok (pieces, next, after) := by
            rw [scanned, hstring]
            rfl
          have hbetween := scanned_between front rest hscanned
          rw [behind_skip] at hbetween
          obtain ⟨found, hfound, hstring'⟩ := scanString_eq_ok hbetween
          refine ⟨found.weaken, hfound, ?_⟩
          rw [if_pos hquote, hstring']
          rfl
      · cases hscan
  next hquote =>
  rw [if_neg hquote]
  split at hscan
  · next hcolon =>
      split at hscan
      · next hsymbol =>
          cases hscan
          obtain ⟨found, hfound, hsymbol'⟩ := scanSymbol?_before hrest hsymbol
          refine ⟨found, hfound, ?_⟩
          rw [if_pos hcolon, hsymbol', behind_skip]
      · cases hscan
  next hcolon =>
  rw [if_neg hcolon]
  split at hscan
  · next hdigit =>
      have hnumber : numberPart (c :: (s ++ rest)) = numberPart (c :: s) :=
        numberPart_before hrest (c :: s)
      have hdrop := (numberPart_leads (c :: s)).drop_append rest
      obtain ⟨more, hmore⟩ := numberPart_head (s := s) hdigit
      simp only [hmore, List.length_cons, List.cons_append,
        List.drop_succ_cons] at hdrop
      dsimp only at hscan ⊢
      split at hscan
      · next htoken =>
          cases hscan
          refine ⟨⟨(s ++ rest).drop more.length, by simp⟩, ?_, ?_⟩
          · simpa [hmore] using hdrop
          · rw [hmore] at htoken
            rw [if_pos hdigit]
            simp only [hnumber, htoken, hmore, List.length_cons,
              Nat.add_sub_cancel, behind_skip]
      · cases hscan
  next hdigit =>
  rw [if_neg hdigit]
  split at hscan
  · next hstart =>
      cases hscan
      refine ⟨Suffix.dropWhile isWordChar (s ++ rest),
        dropWhile_append hword s, ?_⟩
      rw [if_pos hstart, behind_skip]
      simp only [takeWhile_append hword]
  next hstart =>
  rw [if_neg hstart]
  split at hscan
  · next hmark =>
      cases hscan
      refine ⟨⟨s ++ rest, Nat.le_refl _⟩, rfl, ?_⟩
      rw [behind_skip]
  · cases hscan

end Scans

/-! ## Texts -/

section Texts

variable {encoding : Encoding} {front s rest a b : List Char} {p : Place}
variable {lexed other : Lexed}

theorem comment_between (front : List Char) (p : Place)
    (hrest : AtLineEnd rest) :
    comment (p.behind front) (s ++ rest) = (comment p s).behind front := by
  have hbody := takeWhile_append (hrest.stops (q := (· != '\n')) rfl) s
  simp only [comment, hbody, Comment.behind, Span.behind, Place.behind,
    Option.map_some, Comment.mk.injEq, Option.some.injEq, Span.mk.injEq,
    and_true, true_and]
  omega

theorem Lexed.map_join_nil (place : Place) (result : Except Fault Lexed) :
    result.map (Lexed.join ⟨[], [], place⟩) = result := by
  cases result <;> rfl

/-- A text reads alike between other texts, and what follows is read on from
its end. -/
theorem lexFrom_between (front : List Char) (hrest : AtLineEnd rest)
    (hlex : lexFrom encoding p s = .ok lexed) :
    lexFrom encoding (p.behind front) (s ++ rest) =
      (lexFrom encoding (lexed.stop.behind front) rest).map
        (Lexed.join (lexed.behind front)) := by
  fun_induction lexFrom encoding p s generalizing lexed with
  | case1 p =>
      cases hlex
      exact (Lexed.map_join_nil _ _).symm
  | case2 p c r hblank ih =>
      rw [List.cons_append, lexFrom_skipped hblank, ← behind_skip]
      exact ih hlex
  | case3 p r length lexed' hmore hblank =>
      rename_i ih
      cases hlex
      have hstops := hrest.stops (q := (· != '\n')) rfl
      have hnext := ih hmore
      rw [← dropWhile_append hstops, behind_skip] at hnext
      rw [List.cons_append, lexFrom_comment, takeWhile_append hstops, hnext,
        comment_between front p hrest]
      cases lexFrom encoding (lexed'.stop.behind front) rest <;> rfl
  | case4 => cases hlex
  | case5 => cases hlex
  | case6 p c r hblank hmark kind next after hafter hscan lexed' hmore ih =>
      cases hlex
      obtain ⟨left, hleft, hscan'⟩ := scanToken_between front hrest hscan
      have hnext := ih hmore
      rw [← hleft] at hnext
      rw [List.cons_append, lexFrom_token (by simpa using hblank) hmark hscan',
        hnext]
      cases lexFrom encoding (lexed'.stop.behind front) rest <;> rfl
  | case7 => cases hlex

theorem atLineEnd_nil : AtLineEnd [] :=
  fun _ hc => nomatch hc

theorem atLineEnd_lineFeed (rest : List Char) : AtLineEnd ('\n' :: rest) := by
  rintro c hc
  cases hc
  rfl

/-- The separator of a line feed behind the text. -/
def seam (a : List Char) : Token :=
  ⟨.separator, Place.start.walk a, (Place.start.walk (a ++ ['\n'])).offset⟩

/-- Two texts with a line feed between them read as what they read as by
themselves, with a separator between their tokens. -/
theorem lex_joined (ha : lex encoding a = .ok lexed)
    (hb : lex encoding b = .ok other) :
    ∃ stop, lex encoding (a ++ '\n' :: b) =
      .ok ⟨lexed.tokens ++ seam a ::
        other.tokens.map (Token.behind (a ++ ['\n'])),
        lexed.comments ++ other.comments.map (Comment.behind (a ++ ['\n'])),
          stop⟩ := by
  obtain ⟨taken, htaken, hstop⟩ := (reaches_of_lexFrom ha).2.moves
  rw [List.append_nil] at htaken
  have hfirst := lexFrom_between [] (atLineEnd_lineFeed b) ha
  have hsecond := lexFrom_between (a ++ ['\n']) atLineEnd_nil hb
  have hnext : lexed.stop.newLine = Place.start.behind (a ++ ['\n']) := by
    rw [hstop, ← htaken, ← walk_lineFeed, Place.walk_append, Place.walk_cons,
      Place.step_lineFeed, Place.walk_nil]
  rw [List.append_nil, lexFrom_nil] at hsecond
  rw [Lexed.behind_nil, Place.behind_nil, Place.behind_nil, lexFrom_lineFeed,
    hnext, hsecond] at hfirst
  refine ⟨other.stop.behind (a ++ ['\n']), hfirst.trans ?_⟩
  simp only [Except.map, Lexed.join, Lexed.prepend, Lexed.behind,
    List.append_nil, hstop, ← htaken, List.singleton_append, seam,
    walk_lineFeed]

end Texts

end Toy
end Reparse
