import Reparse.Toy.Expr
import Reparse.Proofs.Text.Digits

/-!
# Reading back the words of a text

A text reads as a list of token kinds when the lexer takes exactly these off
it, wherever it stands and whatever delimiter follows.  Texts may be put
together where the second begins with a delimiter, or the first is a mark that
nothing prolongs.
-/

namespace Reparse.Toy

open Text

/-- Whether a character ends any token in front of it. -/
def isDelimiter : Char → Bool
  | ' ' | '\n' | '(' | ')' | ',' | ';' => true
  | _ => false

def Delimited (s : List Char) : Prop :=
  ∀ c ∈ s.head?, isDelimiter c = true

theorem delimited_nil : Delimited [] := by
  simp [Delimited]

theorem delimited_cons {c : Char} {s : List Char} (hc : isDelimiter c = true) :
    Delimited (c :: s) := by
  simpa [Delimited] using hc

theorem Delimited.append {s t : List Char} (hs : Delimited s)
    (ht : Delimited t) :
    Delimited (s ++ t) := by
  cases s with
  | nil => exact ht
  | cons c s => exact delimited_cons (hs c rfl)

/-- The cases of a delimiter. -/
theorem isDelimiter_cases {c : Char} (hc : isDelimiter c = true) :
    c = ' ' ∨ c = '\n' ∨ c = '(' ∨ c = ')' ∨ c = ',' ∨ c = ';' := by
  unfold isDelimiter at hc
  split at hc <;> simp_all

theorem isWordChar_of_isDelimiter {c : Char} (hc : isDelimiter c = true) :
    isWordChar c = false := by
  rcases isDelimiter_cases hc with rfl | rfl | rfl | rfl | rfl | rfl <;> rfl

theorem isDigit_of_isDelimiter {c : Char} (hc : isDelimiter c = true) :
    isDigit c = false := by
  rcases isDelimiter_cases hc with rfl | rfl | rfl | rfl | rfl | rfl <;> rfl

theorem Delimited.stops {p : Char → Bool} {rest : List Char}
    (hrest : Delimited rest) (hp : ∀ c, isDelimiter c = true → p c = false) :
    ∀ c ∈ rest.head?, p c = false :=
  fun c hc => hp c (hrest c hc)

/-! ## The lexer, one step -/

theorem exists_of_map_eq_ok {ε α β : Type} {f : α → β} {result : Except ε α}
    {b : β} (hmap : result.map f = .ok b) : ∃ a, result = .ok a ∧ f a = b := by
  cases result with
  | error e => cases hmap
  | ok a => exact ⟨a, rfl, Except.ok.inj hmap⟩

theorem eq_error_of_map {ε α β : Type} {f : α → β} {result : Except ε α}
    {error : ε} (hmap : result.map f = .error error) :
    result = .error error := by
  cases result with
  | error error' =>
      cases hmap
      rfl
  | ok a => cases hmap

def Lexed.prepend (toks : List Token) (lexed : Lexed) : Lexed :=
  { lexed with tokens := toks ++ lexed.tokens }

section Steps

variable {encoding : Encoding} {place next : Place} {c : Char} {s : List Char}
variable {kind : TokenKind}

theorem lexFrom_nil : lexFrom encoding place [] = .ok ⟨[], [], place⟩ := by
  rw [lexFrom]

theorem lexFrom_skipped (hc : isSkipped c = true) :
    lexFrom encoding place (c :: s) = lexFrom encoding (place.skip 1) s := by
  rw [lexFrom, if_pos hc]

theorem lexFrom_token {left : Suffix s} (hc : isSkipped c = false)
    (hmark : c ≠ '#')
    (hscan : scanToken encoding place c s = .ok (kind, next, left)) :
    lexFrom encoding place (c :: s) =
      (lexFrom encoding next left.val).map
        (Lexed.prepend [⟨kind, place, next.offset⟩]) := by
  rw [lexFrom, if_neg (by simp [hc]), if_neg hmark]
  simp only [hscan]
  cases lexFrom encoding next left.val <;> rfl

theorem lexFrom_comment :
    lexFrom encoding place ('#' :: s) =
      (lexFrom encoding (place.skip (1 + (s.takeWhile (· != '\n')).length))
        (s.dropWhile (· != '\n'))).map
          fun lexed =>
            { lexed with comments := comment place s :: lexed.comments } := by
  rw [lexFrom, if_neg (by decide), if_pos rfl]
  dsimp only
  cases lexFrom encoding (place.skip (1 + (s.takeWhile (· != '\n')).length))
    (s.dropWhile (· != '\n')) <;> rfl

theorem lexFrom_lineFeed :
    lexFrom encoding place ('\n' :: s) =
      (lexFrom encoding place.newLine s).map
        (Lexed.prepend [⟨.separator, place, place.newLine.offset⟩]) :=
  lexFrom_token rfl (by decide) (if_pos rfl)

theorem scanToken_mark (hmark : markToken? c = some kind) :
    scanToken encoding place c s =
      .ok (kind, place.skip 1, ⟨s, Nat.le_refl _⟩) := by
  have hkind := hmark
  unfold markToken? at hmark
  unfold scanToken
  split at hmark <;> first
    | cases hmark
      done
    | rw [if_neg (by decide), if_neg (by decide), if_neg (by decide),
        if_neg (by decide),
        if_neg (by decide), hkind]

theorem lexFrom_mark (hmark : markToken? c = some kind) :
    lexFrom encoding place (c :: s) =
      (lexFrom encoding (place.skip 1) s).map
        (Lexed.prepend [⟨kind, place, (place.skip 1).offset⟩]) := by
  refine lexFrom_token ?_ ?_ (scanToken_mark hmark)
  · unfold markToken? at hmark
    split at hmark <;> first | rfl | cases hmark
  · rintro rfl
    cases hmark

end Steps

/-! ## Texts that read as words -/

/-- Reading the text yields tokens of these kinds, wherever it stands before a
delimiter. -/
def Lexes (encoding : Encoding) (text : List Char) (kinds : List TokenKind) :
    Prop :=
  ∀ place rest, Delimited rest → ∃ toks next, toks.map Token.kind = kinds ∧
    lexFrom encoding place (text ++ rest) =
      (lexFrom encoding next rest).map (Lexed.prepend toks)

section Words

variable {encoding : Encoding} {c : Char} {s t : List Char} {kind : TokenKind}
variable {kinds kinds' : List TokenKind}

theorem Lexed.map_prepend_nil (lexed : Except Fault Lexed) :
    lexed.map (Lexed.prepend []) = lexed := by
  cases lexed <;> rfl

theorem Lexed.map_prepend_append (toks toks' : List Token)
    (lexed : Except Fault Lexed) :
    (lexed.map (Lexed.prepend toks')).map (Lexed.prepend toks) =
      lexed.map (Lexed.prepend (toks ++ toks')) := by
  cases lexed with
  | error fault => rfl
  | ok lexed => simp [Except.map, Lexed.prepend]

theorem Lexes.nil : Lexes encoding [] [] :=
  fun place _ _ => ⟨[], place, rfl, (Lexed.map_prepend_nil _).symm⟩

theorem Lexes.append (hs : Lexes encoding s kinds)
    (ht : Lexes encoding t kinds') (hdelimited : Delimited t) :
    Lexes encoding (s ++ t) (kinds ++ kinds') := by
  intro place rest hrest
  obtain ⟨toks, next, hkinds, hlex⟩ :=
    hs place (t ++ rest) (hdelimited.append hrest)
  obtain ⟨toks', next', hkinds', hlex'⟩ := ht next rest hrest
  refine ⟨toks ++ toks', next', by rw [List.map_append, hkinds, hkinds'], ?_⟩
  rw [List.append_assoc, hlex, hlex', Lexed.map_prepend_append]

theorem Lexes.mark (hmark : markToken? c = some kind)
    (hs : Lexes encoding s kinds) :
    Lexes encoding (c :: s) (kind :: kinds) := by
  intro place rest hrest
  obtain ⟨toks, next, hkinds, hlex⟩ := hs (place.skip 1) rest hrest
  refine ⟨⟨kind, place, (place.skip 1).offset⟩ :: toks, next,
    by simp [hkinds], ?_⟩
  rw [List.cons_append, lexFrom_mark hmark, hlex, Lexed.map_prepend_append]
  rfl

theorem Lexes.skip (hc : isSkipped c = true) (hs : Lexes encoding s kinds) :
    Lexes encoding (c :: s) kinds := by
  intro place rest hrest
  obtain ⟨toks, next, hkinds, hlex⟩ := hs (place.skip 1) rest hrest
  exact ⟨toks, next, hkinds,
    by rw [List.cons_append, lexFrom_skipped hc, hlex]⟩

theorem Lexes.of_scanToken (hc : isSkipped c = false) (hmark : c ≠ '#')
    (hscan : ∀ place rest, Delimited rest →
      ∃ (next : Place) (left : Suffix (s ++ rest)), left.val = rest ∧
        scanToken encoding place c (s ++ rest) = .ok (kind, next, left)) :
    Lexes encoding (c :: s) [kind] := by
  intro place rest hrest
  obtain ⟨next, left, hleft, hscan⟩ := hscan place rest hrest
  refine ⟨[⟨kind, place, next.offset⟩], next, rfl, ?_⟩
  rw [List.cons_append, lexFrom_token hc hmark hscan, hleft]

theorem Lexes.enclose (hs : Lexes encoding s kinds) :
    Lexes encoding ('(' :: s ++ [')'])
      (.leftParen :: (kinds ++ [.rightParen])) :=
  .mark rfl (hs.append (.mark rfl .nil) (delimited_cons rfl))

/-! ## Names and symbols -/

theorem isWordStart_toNat {c : Char} (hc : isWordStart c = true) :
    65 ≤ c.toNat ∧ c.toNat ≤ 122 := by
  unfold isWordStart isLetter at hc
  simp only [Bool.or_eq_true, Bool.and_eq_true, decide_eq_true_eq,
    beq_iff_eq] at hc
  rcases hc with (⟨hlow, hhigh⟩ | ⟨hlow, hhigh⟩) | rfl
  · exact ⟨Nat.le_trans (by decide) hlow, hhigh⟩
  · exact ⟨hlow, Nat.le_trans hhigh (by decide)⟩
  · decide

theorem isWordChar_toNat {c : Char} (hc : isWordChar c = true) :
    48 ≤ c.toNat ∧ c.toNat ≤ 122 := by
  unfold isWordChar at hc
  by_cases hstart : isWordStart c = true
  · have hbounds := isWordStart_toNat hstart
    omega
  · have hdigit : isDigit c = true := by
      unfold isWordStart at hstart
      simp_all
    have hbounds := isDigit_toNat hdigit
    omega

theorem ne_of_toNat_ne {c d : Char} (hne : c.toNat ≠ d.toNat) : c ≠ d :=
  fun heq => hne (congrArg Char.toNat heq)

theorem isSkipped_of_toNat {c : Char} (hc : 33 ≤ c.toNat) :
    isSkipped c = false := by
  unfold isSkipped
  simp only [Bool.or_eq_false_iff, beq_eq_false_iff_ne]
  have hblank : ∀ d : Char, d.toNat < 33 → c ≠ d :=
    fun d hd => ne_of_toNat_ne (by omega)
  exact ⟨⟨hblank _ (by decide), hblank _ (by decide)⟩, hblank _ (by decide)⟩

theorem isDigit_of_isWordStart {c : Char} (hc : isWordStart c = true) :
    isDigit c = false := by
  by_contra hdigit
  have hstart := isWordStart_toNat hc
  have hbounds := isDigit_toNat (by simpa using hdigit)
  omega

/-- A word in front of no other character of a word. -/
theorem lexFrom_word {place : Place} {rest : List Char}
    (hc : isWordStart c = true) (hs : s.all isWordChar = true)
    (hrest : ∀ d ∈ rest.head?, isWordChar d = false) :
    lexFrom encoding place (c :: s ++ rest) =
      (lexFrom encoding (place.skip (c :: s).length) rest).map
        (Lexed.prepend
          [⟨wordToken (c :: s), place,
            (place.skip (c :: s).length).offset⟩]) := by
  have hbounds := isWordStart_toNat hc
  have hmark : ∀ d : Char, d.toNat < 65 → c ≠ d :=
    fun d hd => ne_of_toNat_ne (by omega)
  have hs : ∀ c ∈ s, isWordChar c = true := by simpa using hs
  have hleft : (Suffix.dropWhile isWordChar (s ++ rest)).val = rest :=
    dropWhile_run hs hrest
  have hscan : scanToken encoding place c (s ++ rest) =
      .ok (wordToken (c :: s), place.skip (c :: s).length,
        Suffix.dropWhile isWordChar (s ++ rest)) := by
    unfold scanToken
    rw [if_neg (hmark _ (by decide)), if_neg (hmark _ (by decide)),
      if_neg (hmark _ (by decide)),
      if_neg (by simp [isDigit_of_isWordStart hc]), if_pos hc]
    simp only [takeWhile_run hs hrest]
  have hblank : isSkipped c = false := isSkipped_of_toNat (by omega)
  rw [List.cons_append, lexFrom_token hblank (hmark _ (by decide)) hscan,
    hleft]

theorem Lexes.word (hc : isWordStart c = true) (hs : s.all isWordChar = true) :
    Lexes encoding (c :: s) [wordToken (c :: s)] := by
  intro place rest hrest
  have hstops := hrest.stops fun c hc => isWordChar_of_isDelimiter hc
  exact ⟨[⟨wordToken (c :: s), place, (place.skip (c :: s).length).offset⟩], _,
    rfl,
    lexFrom_word hc hs hstops⟩

theorem isName_cases {name : String} (hname : isName name = true) :
    ∃ c r, name.toList = c :: r ∧ isWordStart c = true ∧
      r.all isWordChar = true ∧
      wordToken (c :: r) = .ident name := by
  unfold isName at hname
  split at hname
  · cases hname
  · next c r htext =>
      simp only [Bool.and_eq_true, beq_iff_eq] at hname
      exact ⟨c, r, htext, hname.1.1, hname.1.2, hname.2⟩

theorem Lexes.name {name : String} (hname : isName name = true) :
    Lexes encoding name.toList [.ident name] := by
  obtain ⟨c, r, htext, hstart, hrest, htoken⟩ := isName_cases hname
  rw [htext, ← htoken]
  exact .word hstart hrest

theorem isSymbol_cases {name : String} (hsymbol : isSymbol name = true) :
    isName name = true ∨ name ∈ ["+", "-", "*", "/", "-@"] := by
  unfold isSymbol at hsymbol
  simp only [Bool.or_eq_true, beq_iff_eq] at hsymbol
  rcases hsymbol with (hname | hoperator) | rfl
  · exact .inl hname
  · unfold Operator.ofSymbol? at hoperator
    split at hoperator <;> simp_all
  · exact .inr (by decide)

theorem scanSymbol?_word {c : Char} {s rest : List Char}
    (hc : isWordStart c = true) (hs : ∀ d ∈ s, isWordChar d = true)
    (hrest : Delimited rest) :
    ∃ left : Suffix (c :: s ++ rest), left.val = rest ∧
      scanSymbol? (c :: s ++ rest) = some (c :: s, left) := by
  have hstops := hrest.stops fun c hc => isWordChar_of_isDelimiter hc
  refine ⟨((Suffix.dropWhile isWordChar (s ++ rest)).after c).weaken,
    dropWhile_run hs hstops, ?_⟩
  simp only [List.cons_append, scanSymbol?, hc, if_true,
    takeWhile_run hs hstops]

theorem scanSymbol?_minus {rest : List Char} (hrest : Delimited rest) :
    ∃ left : Suffix ('-' :: rest), left.val = rest ∧
      scanSymbol? ('-' :: rest) = some (['-'], left) := by
  refine ⟨(Rest.tail '-' rest).weaken, rfl, ?_⟩
  cases rest with
  | nil => rfl
  | cons c rest =>
      have hc : c ≠ '@' := by
        rintro rfl
        exact absurd (hrest '@' rfl) (by decide)
      have hminus : isWordStart '-' = false := by decide
      simp [scanSymbol?, hminus, hc]

theorem scanSymbol?_isSymbol {name : String} {rest : List Char}
    (hsymbol : isSymbol name = true) (hrest : Delimited rest) :
    ∃ left : Suffix (name.toList ++ rest), left.val = rest ∧
      scanSymbol? (name.toList ++ rest) = some (name.toList, left) := by
  rcases isSymbol_cases hsymbol with hname | hoperator
  · obtain ⟨c, s, htext, hc, hs, -⟩ := isName_cases hname
    rw [htext]
    exact scanSymbol?_word hc (by simpa using hs) hrest
  · simp only [List.mem_cons, List.not_mem_nil, or_false] at hoperator
    rcases hoperator with rfl | rfl | rfl | rfl | rfl
    · exact ⟨(Rest.tail '+' rest).weaken, rfl, rfl⟩
    · exact scanSymbol?_minus hrest
    · exact ⟨(Rest.tail '*' rest).weaken, rfl, rfl⟩
    · exact ⟨(Rest.tail '/' rest).weaken, rfl, rfl⟩
    · exact ⟨((Rest.tail '@' rest).after '-').weaken, rfl, rfl⟩

theorem Lexes.symbol {name : String} (hsymbol : isSymbol name = true) :
    Lexes encoding (':' :: name.toList) [.sym name] := by
  refine .of_scanToken rfl (by decide) fun place rest hrest => ?_
  obtain ⟨left, hleft, hscan⟩ := scanSymbol?_isSymbol hsymbol hrest
  refine ⟨place.skip (1 + name.toList.length), left, hleft, ?_⟩
  unfold scanToken
  rw [if_neg (by decide), if_neg (by decide), if_pos rfl, hscan]
  simp only [String.ofList_toList]

end Words

end Reparse.Toy
