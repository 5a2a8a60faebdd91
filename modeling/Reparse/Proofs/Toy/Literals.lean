import Reparse.Toy.Printer
import Reparse.Proofs.Binary64.Literal
import Reparse.Proofs.Text.Utf8
import Reparse.Proofs.Toy.Lexing

/-!
# Literals read back

The spelling of a string reads as that string in every encoding, since the
printer writes no byte escapes.  A number is taken off a text whole when its
parts are digits, a fraction and an exponent.
-/

namespace Reparse.Toy

open Text

/-! ## Strings -/

section Strings

variable {encoding : Encoding} {c : Char} {s rest : List Char} {piece : Piece}
variable {pieces : List Piece}

/-- The escape after a backslash stands for the piece, and `rest` follows
it. -/
def ReadsEscape (encoding : Encoding) (s : List Char) (piece : Piece)
    (rest : List Char) : Prop :=
  ∀ place, ∃ (next : Place) (left : Rest s), left.val = rest ∧
    scanEscape encoding place s = .ok (piece, next, left)

/-- The string after an opening quote has the pieces, and `rest` follows the
closing quote. -/
def ReadsString (encoding : Encoding) (s : List Char) (pieces : List Piece)
    (rest : List Char) : Prop :=
  ∀ place, ∃ (next : Place) (left : Rest s), left.val = rest ∧
    scanString encoding place s = .ok (pieces, next, left)

theorem ReadsString.close : ReadsString encoding ('"' :: rest) [] rest := by
  intro place
  refine ⟨place.skip 1, Rest.tail '"' rest, rfl, ?_⟩
  rw [scanString, if_pos rfl]

theorem ReadsString.plain (hquote : c ≠ '"') (hslash : c ≠ '\\')
    (hfeed : c ≠ '\n') (hs : ReadsString encoding s pieces rest) :
    ReadsString encoding (c :: s) (.char c :: pieces) rest := by
  intro place
  obtain ⟨next, left, hleft, hscan⟩ := hs (place.skip 1)
  refine ⟨next, left.after c, hleft, ?_⟩
  rw [scanString, if_neg hquote]
  simp only [hslash, hfeed, if_false, hscan]
  rfl

theorem ReadsString.escape {e : List Char}
    (hescape : ReadsEscape encoding e piece s)
    (hs : ReadsString encoding s pieces rest) :
    ReadsString encoding ('\\' :: e) (piece :: pieces) rest := by
  intro place
  obtain ⟨middle, after, hafter, hscan⟩ := hescape (place.skip 1)
  subst hafter
  obtain ⟨next, left, hleft, hscan'⟩ := hs middle
  refine ⟨next, (after.trans left.weaken).after '\\', hleft, ?_⟩
  rw [scanString, if_neg (by decide)]
  simp only [if_neg (by decide : '\\' ≠ '\n'), if_true, hscan, hscan']
  rfl

theorem readsEscape_codePoint (c : Char) :
    ReadsEscape encoding ('u' :: '{' :: (hex c.toNat ++ '}' :: s))
      (.char c) s := by
  intro place
  have hhex : ∀ d ∈ hex c.toNat, (d != '}') = true := fun d hd => by
    simpa using (hex_ne hd).2.1
  have hbrace : ∀ d ∈ ('}' :: s).head?, (d != '}') = false := by simp
  have htake := takeWhile_run hhex hbrace
  have hdrop := dropWhile_run hhex hbrace
  simp only [scanEscape]
  split
  · next hnone => cases hdrop.symm.trans hnone
  · next after hsome =>
      cases hdrop.symm.trans hsome
      simp only [htake, readCodePoint?_hex]
      exact ⟨_, _, rfl, rfl⟩

theorem ReadsString.literalChar (hs : ReadsString encoding s pieces rest)
    (c : Char) :
    ReadsString encoding (literalChar c ++ s) (.char c :: pieces) rest := by
  unfold Toy.literalChar
  by_cases hzero : c = '\x00'
  · subst hzero
    exact .escape (fun place => ⟨_, _, rfl, rfl⟩) hs
  rw [if_neg hzero]
  unfold escapeChar
  by_cases hquote : c = '"' ∨ c = '\\'
  · rw [if_pos hquote]
    rcases hquote with rfl | rfl
    · exact .escape (fun place => ⟨_, _, rfl, rfl⟩) hs
    · exact .escape (fun place => ⟨_, _, rfl, rfl⟩) hs
  rw [if_neg hquote]
  by_cases hfeed : c = '\n'
  · subst hfeed
    exact .escape (fun place => ⟨_, _, rfl, rfl⟩) hs
  rw [if_neg hfeed]
  by_cases htab : c = '\t'
  · subst htab
    exact .escape (fun place => ⟨_, _, rfl, rfl⟩) hs
  rw [if_neg htab]
  by_cases hreturn : c = '\r'
  · subst hreturn
    exact .escape (fun place => ⟨_, _, rfl, rfl⟩) hs
  rw [if_neg hreturn]
  by_cases hcontrol : isControl c = true
  · rw [if_pos hcontrol]
    have hescape := ReadsString.escape (readsEscape_codePoint c) hs
    simpa [codePointEscape] using hescape
  · rw [if_neg hcontrol]
    exact .plain (fun h => hquote (.inl h)) (fun h => hquote (.inr h)) hfeed hs

theorem readsString_literal (encoding : Encoding) (text rest : List Char) :
    ReadsString encoding (text.flatMap literalChar ++ '"' :: rest)
      (text.map .char) rest := by
  induction text with
  | nil => exact .close
  | cons c text ih =>
      rw [List.flatMap_cons, List.append_assoc]
      exact ih.literalChar c

theorem stringToken_char (text : List Char) :
    stringToken (text.map .char) = .str (String.ofList text) := by
  have hbytes :
      (text.map Piece.char).flatMap Piece.bytes = Utf8.encode text := by
    rw [List.flatMap_map]
    rfl
  unfold stringToken
  simp only [hbytes, Utf8.decode?_encode]

theorem Lexes.str (text : String) :
    Lexes encoding (stringLiteral text.toList) [.str text] := by
  have hliteral : stringLiteral text.toList =
      '"' :: (text.toList.flatMap literalChar ++ ['"']) := rfl
  rw [hliteral]
  refine .of_scanToken rfl (by decide) fun place rest _ => ?_
  obtain ⟨next, left, hleft, hscan⟩ :=
    readsString_literal encoding text.toList rest (place.skip 1)
  rw [List.append_assoc, List.singleton_append]
  refine ⟨next, left.weaken, hleft, ?_⟩
  unfold scanToken
  rw [if_neg (by decide), if_pos rfl, hscan]
  simp only [stringToken_char, String.ofList_toList]
  rfl

end Strings

/-! ## Numbers -/

section Numbers

variable {encoding : Encoding} {whole fraction exponent rest : List Char}

theorem Delimited.not_digit (hrest : Delimited rest) :
    ∀ c ∈ rest.head?, isDigit c = false :=
  hrest.stops fun _ hc => isDigit_of_isDelimiter hc

theorem not_digit_of_exponent (hexponent : IsExponent exponent)
    (hrest : Delimited rest) :
    ∀ c ∈ (exponent ++ rest).head?, isDigit c = false := by
  rcases hexponent with rfl | ⟨ds, -, rfl | rfl⟩
  · exact hrest.not_digit
  · simp [isDigit]
  · simp [isDigit]

theorem not_digit_of_fraction (hfraction : IsFraction fraction)
    (hexponent : IsExponent exponent) (hrest : Delimited rest) :
    ∀ c ∈ (fraction ++ (exponent ++ rest)).head?, isDigit c = false := by
  rcases hfraction with rfl | ⟨ds, -, rfl⟩
  · rw [List.nil_append]
    exact not_digit_of_exponent hexponent hrest
  · simp [isDigit]

theorem exponentPart_append (hexponent : IsExponent exponent)
    (hrest : Delimited rest) :
    exponentPart (exponent ++ rest) = exponent := by
  rcases hexponent with rfl | ⟨ds, hdigits, rfl | rfl⟩
  · cases rest with
    | nil => rfl
    | cons c rest =>
        have hc : c ≠ 'e' ∧ c ≠ 'E' := by
          constructor <;> rintro rfl <;> exact absurd (hrest _ rfl) (by decide)
        cases rest with
        | nil => rfl
        | cons d rest => simp [exponentPart, hc]
  · obtain ⟨d, ds, rfl, hd, hds⟩ := hdigits.exists_cons
    simp [exponentPart, hd, takeWhile_run hds hrest.not_digit]
  · obtain ⟨d, ds, rfl, hd, hds⟩ := hdigits.exists_cons
    have hminus : isDigit '-' = false := by decide
    simp [exponentPart, hd, hminus, takeWhile_run hds hrest.not_digit]

theorem fractionPart_append (hfraction : IsFraction fraction)
    (hexponent : IsExponent exponent) (hrest : Delimited rest) :
    fractionPart (fraction ++ (exponent ++ rest)) = fraction := by
  rcases hfraction with rfl | ⟨ds, hdigits, rfl⟩
  · rcases hexponent with rfl | ⟨ds, -, rfl | rfl⟩
    · cases rest with
      | nil => rfl
      | cons c rest =>
          have hc : c ≠ '.' := by
            rintro rfl
            exact absurd (hrest _ rfl) (by decide)
          simp [fractionPart, hc]
    · simp [fractionPart]
    · simp [fractionPart]
  · obtain ⟨d, ds, rfl, hd, hds⟩ := hdigits.exists_cons
    simp [fractionPart, hd,
      takeWhile_run hds (not_digit_of_exponent hexponent hrest)]

/-- The parts of a number before a delimiter are all that the lexer takes for
the number. -/
theorem numberPart_append (hwhole : ∀ c ∈ whole, isDigit c = true)
    (hfraction : IsFraction fraction) (hexponent : IsExponent exponent)
    (hrest : Delimited rest) :
    numberPart (whole ++ fraction ++ exponent ++ rest) =
      (whole ++ fraction ++ exponent, !fraction.isEmpty ||
        !exponent.isEmpty) := by
  have hstop := not_digit_of_fraction hfraction hexponent hrest
  have htake :
      (whole ++ (fraction ++ (exponent ++ rest))).takeWhile isDigit = whole :=
    takeWhile_run hwhole hstop
  have hdrop :
      (whole ++ (fraction ++ (exponent ++ rest))).drop
        (whole.length + fraction.length) =
      exponent ++ rest := by
    rw [← List.append_assoc, ← List.length_append, List.drop_left]
  simp only [numberPart, List.append_assoc, htake, List.drop_left,
    fractionPart_append hfraction hexponent hrest, hdrop,
    exponentPart_append hexponent hrest]

/-- A number reads as its token. -/
theorem Lexes.number {kind : TokenKind} (hwhole : IsDigits whole)
    (hfraction : IsFraction fraction) (hexponent : IsExponent exponent)
    (htoken : numberToken (whole ++ fraction ++ exponent)
      (!fraction.isEmpty || !exponent.isEmpty) = .ok kind) :
    Lexes encoding (whole ++ fraction ++ exponent) [kind] := by
  obtain ⟨hne, hdigits⟩ := hwhole
  obtain ⟨c, whole, rfl⟩ := List.exists_cons_of_ne_nil hne
  have hc : isDigit c = true := hdigits c List.mem_cons_self
  have hbounds := isDigit_toNat hc
  have hmark : ∀ d : Char, d.toNat < 48 ∨ 57 < d.toNat → c ≠ d :=
    fun d hd => ne_of_toNat_ne (by omega)
  rw [List.cons_append, List.cons_append]
  refine .of_scanToken (isSkipped_of_toNat (by omega)) (hmark _ (by decide))
    fun place rest hrest => ?_
  have hpart := numberPart_append hdigits hfraction hexponent hrest
  simp only [List.cons_append] at hpart htoken
  refine ⟨place.skip (c :: (whole ++ fraction ++ exponent)).length,
    ⟨(whole ++ fraction ++ exponent ++ rest).drop
      (whole ++ fraction ++ exponent).length, ?_⟩,
    List.drop_left, ?_⟩
  · rw [List.length_drop]
    exact Nat.sub_le _ _
  unfold scanToken
  rw [if_neg (hmark _ (by decide)), if_neg (hmark _ (by decide)),
    if_neg (hmark _ (by decide)),
    if_pos hc]
  simp only [hpart, htoken, List.length_cons, Nat.add_sub_cancel]

theorem Lexes.int {n : Nat} (hn : n < 2 ^ 63) :
    Lexes encoding (decimal n) [.int (Int64.ofInt n)] := by
  have hdigits := isDigits_decimal n
  have htoken :
      numberToken (decimal n ++ [] ++ []) (!List.isEmpty ([] : List Char) ||
        !List.isEmpty ([] : List Char)) = .ok (.int (Int64.ofInt n)) := by
    simp [numberToken, readInt64?_decimal hn]
  have hlexes :
      Lexes encoding (decimal n ++ [] ++ []) [.int (Int64.ofInt n)] :=
    .number hdigits (.inl rfl) (.inl rfl) htoken
  simpa using hlexes

theorem Lexes.float {x : Binary64} (hfinite : x.isFinite = true)
    (hsign : x.isNegative = false) :
    Lexes encoding x.literal [.float x] := by
  obtain ⟨whole, fraction, exponent, htext, hwhole, hfraction, hexponent,
    hmarked, -⟩ :=
    Binary64.exists_parts literalLayout rfl hfinite
  have hread : Binary64.read? x.literal = some x :=
    Binary64.read?_write rfl hfinite
  have hliteral : x.literal = whole ++ fraction ++ exponent := by
    unfold Binary64.literal
    rw [Binary64.write_of_isFinite hfinite, hsign, htext]
    rfl
  have hmark : (!fraction.isEmpty || !exponent.isEmpty) = true := by
    rcases hmarked with hne | hne
    · simp [hne]
    · simp [hne]
  rw [hliteral] at hread ⊢
  refine .number hwhole hfraction hexponent ?_
  rw [hmark]
  simp only [numberToken, if_true, hread, Option.getD_some]

end Numbers

end Reparse.Toy
