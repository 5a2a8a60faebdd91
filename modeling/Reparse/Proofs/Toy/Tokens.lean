import Reparse.Proofs.Toy.Shape
import Mathlib.Data.List.DropRight
import Mathlib.Data.List.TakeWhile

/-!
# What the lexer guarantees

Every token of a text is sound, provided that the text is shorter than
`2 ^ 63`: lines are counted in line feeds, so that a place and what follows it
never exceed the length of the text.  The text of a comment has no line feed
and no blanks at its end.
-/

namespace Reparse.Toy

open Text

/-! ## Lines -/

section Lines

variable {encoding : Encoding} {place next : Place} {c : Char} {s : List Char}

@[simp] theorem Place.line_skip (place : Place) (n : Nat) :
    (place.skip n).line = place.line := rfl

@[simp] theorem Place.line_newLine (place : Place) :
    place.newLine.line = place.line + 1 := rfl

theorem line_of_scanEscape {piece : Piece} {left : Rest s}
    (hscan : scanEscape encoding place s = .ok (piece, next, left)) :
    next.line = place.line := by
  unfold scanEscape at hscan
  split at hscan
  · cases hscan
  dsimp only at hscan
  split at hscan
  case h_7 =>
      split at hscan
      · cases hscan
        rfl
      · cases hscan
  case h_8 =>
      split at hscan
      · split at hscan
        · cases hscan
        · split at hscan
          · cases hscan
            rfl
          · cases hscan
      · cases hscan
  case h_9 => cases hscan
  all_goals
    cases hscan
    rfl

/-- A string takes up as many characters as it has line feeds, at least. -/
theorem line_of_scanString {pieces : List Piece} {left : Rest s}
    (hscan : scanString encoding place s = .ok (pieces, next, left)) :
    next.line + left.val.length ≤ place.line + s.length := by
  fun_induction scanString encoding place s generalizing pieces next with
  | case1 => cases hscan
  | case2 =>
      cases hscan
      simp [Rest.tail]
  | case3 => cases hscan
  | case4 => cases hscan
  | case5 place c r hquote first piece middle rest hrest hfirst more last rest'
        hrest' hmore =>
      rename_i ih
      cases hscan
      have hlater := ih hmore
      -- The first unit takes a line only if it is a line feed, which is then
      -- its only character.
      have hhere :
          middle.line + rest.length ≤ place.line + (c :: r).length := by
        dsimp only [first] at hfirst
        split at hfirst
        · cases hfirst
          simp only [Place.line_newLine, List.length_cons]
          omega
        · split at hfirst
          · split at hfirst
            · next hescape =>
                cases hfirst
                have hline := line_of_scanEscape hescape
                rw [hline, List.length_cons]
                simp only [Place.line_skip]
                omega
            · cases hfirst
          · cases hfirst
            simp
      exact Nat.le_trans hlater hhere

end Lines

/-! ## Kinds -/

theorem wordToken_sound {c : Char} {s : List Char} (hc : isWordStart c = true)
    (hs : s.all isWordChar = true) : (wordToken (c :: s)).Sound := by
  by_cases hword : String.ofList (c :: s) ∈ reservedWords
  · have hident := wordToken_ne_ident hword
    unfold wordToken at hident ⊢
    split
    · trivial
    · trivial
    · trivial
    · trivial
    · trivial
    · next h1 h2 h3 h4 h5 =>
        simp only [reservedWords, List.mem_cons, List.not_mem_nil,
          or_false] at hword
        rcases hword with heq | heq | heq | heq | heq <;> contradiction
  · rw [wordToken_of_not_mem hword]
    exact isName_ofList hc hs hword

/-- The name of a symbol is a word or an operator. -/
theorem sound_of_scanSymbol? {s name : List Char} {left : Suffix s}
    (hscan : scanSymbol? s = some (name, left)) :
    (TokenKind.sym (String.ofList name)).Sound := by
  unfold scanSymbol? at hscan
  split at hscan
  · cases hscan
  · next c r =>
      split at hscan
      · next hc =>
          cases hscan
          have hs : (r.takeWhile isWordChar).all isWordChar = true := by simp
          by_cases hword : String.ofList (c :: r.takeWhile isWordChar) ∈
            reservedWords
          · exact .inr hword
          · refine .inl ?_
            unfold isSymbol
            rw [isName_ofList hc hs hword]
            rfl
      · split at hscan
        · split at hscan
          · cases hscan
            exact .inl rfl
          · cases hscan
            exact .inl rfl
        · split at hscan
          · next hoperator =>
              cases hscan
              rcases hoperator with rfl | rfl | rfl <;> exact .inl rfl
          · cases hscan

theorem numberPart_head {c : Char} {s : List Char} (hc : isDigit c = true) :
    ∃ more, (numberPart (c :: s)).1 = c :: more := by
  simp only [numberPart, List.takeWhile_cons, hc, if_true, List.cons_append]
  exact ⟨_, rfl⟩

theorem readInt64?_nonneg {c : Char} {s : List Char} {value : Int64}
    (hc : isDigit c = true) (hread : readInt64? (c :: s) = some value) :
    0 ≤ value := by
  have hminus : c ≠ '-' := by
    rintro rfl
    cases hc
  unfold readInt64? at hread
  obtain ⟨i, hi, hvalue⟩ := Option.bind_eq_some_iff.mp hread
  have hnonneg : 0 ≤ i := by
    unfold readInt? at hi
    split at hi
    · next heq => exact absurd (List.cons.inj heq).1 hminus
    · cases hmagnitude : readUnsigned? 10 (c :: s) with
      | none => simp [hmagnitude] at hi
      | some n =>
          have hcast : (n : Int) = i := by simpa [hmagnitude] using hi
          omega
  split at hvalue
  · next hrange =>
      obtain ⟨hlow, hhigh⟩ := inInt64_iff.mp hrange
      cases hvalue
      rw [Int64.le_iff_toInt_le, Int64.toInt_ofInt_of_le hlow hhigh]
      exact hnonneg
  · cases hvalue

theorem sound_of_numberToken {c : Char} {s : List Char} {kind : TokenKind}
    {hasFraction : Bool} (hc : isDigit c = true)
    (htoken : numberToken (c :: s) hasFraction = .ok kind) :
    kind.Sound := by
  unfold numberToken at htoken
  split at htoken
  · cases htoken
    trivial
  · split at htoken
    · next hread =>
        cases htoken
        exact readInt64?_nonneg hc hread
    · cases htoken

theorem sound_of_markToken? {c : Char} {kind : TokenKind}
    (hmark : markToken? c = some kind) :
    kind.Sound := by
  unfold markToken? at hmark
  split at hmark <;> cases hmark <;> trivial

section Tokens

variable {encoding : Encoding} {place next : Place} {c : Char} {s : List Char}
variable {kind : TokenKind}

theorem sound_of_scanToken {left : Suffix s}
    (hscan : scanToken encoding place c s = .ok (kind, next, left)) :
    kind.Sound := by
  unfold scanToken at hscan
  split at hscan
  · cases hscan
    trivial
  split at hscan
  · split at hscan
    · cases hscan
      unfold stringToken
      dsimp only
      split <;> trivial
    · cases hscan
  split at hscan
  · split at hscan
    · next hsymbol =>
        cases hscan
        exact sound_of_scanSymbol? hsymbol
    · cases hscan
  split at hscan
  · next hc =>
      dsimp only at hscan
      split at hscan
      · next htoken =>
          cases hscan
          obtain ⟨more, hmore⟩ := numberPart_head (s := s) hc
          rw [hmore] at htoken
          exact sound_of_numberToken hc htoken
      · cases hscan
  split at hscan
  · next hc =>
      cases hscan
      exact wordToken_sound hc (by simp)
  split at hscan
  · next hmark =>
      cases hscan
      exact sound_of_markToken? hmark
  · cases hscan

theorem line_of_scanToken {left : Suffix s}
    (hscan : scanToken encoding place c s = .ok (kind, next, left)) :
    next.line + left.val.length ≤ place.line + (c :: s).length := by
  have hleft := left.property
  rw [List.length_cons]
  unfold scanToken at hscan
  split at hscan
  · cases hscan
    simp only [Place.line_newLine]
    omega
  split at hscan
  · split at hscan
    · next hstring =>
        cases hscan
        have hline := line_of_scanString hstring
        simp only [Place.line_skip] at hline ⊢
        omega
    · cases hscan
  split at hscan
  · split at hscan
    · cases hscan
      simp only [Place.line_skip]
      omega
    · cases hscan
  split at hscan
  · dsimp only at hscan
    split at hscan
    · cases hscan
      simp only [Place.line_skip] at hleft ⊢
      omega
    · cases hscan
  split at hscan
  · cases hscan
    simp only [Place.line_skip]
    omega
  split at hscan
  · cases hscan
    simp only [Place.line_skip]
    omega
  · cases hscan

end Tokens

/-! ## Whole texts -/

/-- A comment has no line feed and does not end in a blank. -/
def Comment.Sound (comment : Comment) : Prop :=
  '\n' ∉ comment.text.toList ∧
    trimEnd comment.text.toList = comment.text.toList

structure Lexed.Sound (lexed : Lexed) : Prop where
  tokens : AllSound lexed.tokens
  comments : ∀ comment ∈ lexed.comments, Comment.Sound comment

theorem trimEnd_trimEnd (s : List Char) : trimEnd (trimEnd s) = trimEnd s := by
  unfold trimEnd
  rw [List.reverse_reverse, List.dropWhile_idempotent]

theorem mem_of_mem_trimEnd {c : Char} {s : List Char} (hc : c ∈ trimEnd s) :
    c ∈ s := by
  unfold trimEnd at hc
  rw [List.mem_reverse] at hc
  exact List.mem_reverse.mp ((List.dropWhile_suffix isBlank).subset hc)

theorem sound_comment (place : Place) (s : List Char) :
    Comment.Sound (comment place s) := by
  unfold comment
  constructor
  · intro hfeed
    rw [String.toList_ofList] at hfeed
    have hne := List.mem_takeWhile_imp (mem_of_mem_trimEnd hfeed)
    simp at hne
  · rw [String.toList_ofList]
    exact trimEnd_trimEnd _

/-- The tokens and comments of a text that fits in what is left before `2 ^ 63`
are sound. -/
theorem sound_of_lexFrom {encoding : Encoding} {place : Place} {s : List Char}
    {lexed : Lexed} (hroom : place.line + s.length ≤ 2 ^ 63)
    (hlex : lexFrom encoding place s = .ok lexed) :
    lexed.Sound := by
  fun_induction lexFrom encoding place s generalizing lexed with
  | case1 =>
      cases hlex
      exact ⟨by simp [AllSound], by simp⟩
  | case2 place c r hskipped =>
      rename_i ih
      rw [List.length_cons] at hroom
      exact ih (by rw [Place.line_skip]; omega) hlex
  | case3 place r length lexed' hmore hskipped =>
      rename_i ih
      cases hlex
      have hshorter := length_dropWhile_le (· != '\n') r
      rw [List.length_cons] at hroom
      obtain ⟨htokens, hcomments⟩ := ih (by rw [Place.line_skip]; omega) hmore
      refine ⟨htokens, fun found hfound => ?_⟩
      rcases List.mem_cons.mp hfound with rfl | hfound
      · exact sound_comment place r
      · exact hcomments found hfound
  | case4 => cases hlex
  | case5 => cases hlex
  | case6 place c r hskipped hmark kind next rest hrest hscan lexed' hmore =>
      rename_i ih
      cases hlex
      have hline := line_of_scanToken hscan
      obtain ⟨htokens, hcomments⟩ := ih (Nat.le_trans hline hroom) hmore
      refine ⟨fun t ht => ?_, hcomments⟩
      rcases List.mem_cons.mp ht with rfl | ht
      · rw [List.length_cons] at hroom
        exact ⟨sound_of_scanToken hscan, fun _ => by dsimp only; omega⟩
      · exact htokens t ht
  | case7 => cases hlex

end Reparse.Toy
