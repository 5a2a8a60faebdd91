import Reparse.Proofs.Toy.Scanning

/-!
# The lexer by offsets on whole texts

Literals, tokens and whole texts are read by offsets as they are read by what
is left.  The lexer by offsets gets on with as many rounds as there are
characters left, and a few more.

Behind a byte escape at the end of the text the offset may be beyond it.
Nothing is left there, so nothing is cut out of the text any more.
-/

namespace Reparse.Toy

open Text Checked

namespace Scanner

section Literals

variable {text s : List Char} {c : Char} {p : Place} {n : Nat}
variable {encoding : Encoding}

/-! ## Escapes -/

def bytePiece (encoding : Encoding) (p : Place) (s : List Char) :
    Except Fault (Piece × Place × List Char) :=
  match readUnsigned? 16 (s.take 2) with
  | some n => .ok (.ofByte encoding n, p.skip 2, s.drop 2)
  | none => .error (p.fault (.invalidByteEscape (String.ofList (s.take 2))))

def bracedPiece (p : Place) (s : List Char) :
    Except Fault (Piece × Place × List Char) :=
  let hex := s.takeWhile (· != '}')
  let atBrace := p.skip hex.length
  match s.dropWhile (· != '}') with
  | [] => .error (atBrace.fault .unterminatedUnicodeEscape)
  | _ :: rest =>
    match readCodePoint? hex with
    | some c => .ok (.char c, atBrace.skip 1, rest)
    | none =>
        .error
          ((atBrace.skip 1).fault (.invalidUnicodeEscape (String.ofList hex)))

theorem escaped_byte :
    escaped encoding p ('x' :: s) = bytePiece encoding (p.skip 1) s := by
  simp only [escaped, scanEscape, bytePiece]
  cases readUnsigned? 16 (s.take 2) <;> rfl

theorem escaped_braced :
    escaped encoding p ('u' :: '{' :: s) =
      bracedPiece ((p.skip 1).skip 1) s := by
  simp only [escaped, scanEscape, bracedPiece, Place.skip_skip, Nat.add_assoc]
  split
  · next hdrop =>
      rw [hdrop]
      rfl
  · next hdrop => cases readCodePoint? (s.takeWhile (· != '}')) <;>
      simp [hdrop, Except.map]

theorem escaped_unbraced (hs : s.head? ≠ some '{') :
    escaped encoding p ('u' :: s) =
      .error ((p.skip 1).fault .unicodeBraceExpected) := by
  simp only [escaped, scanEscape]
  split
  · exact absurd rfl hs
  · rfl

theorem agrees_byteEscape (h : Leaves text p s)
    (hlength : p.offset + s.length = text.length) :
    Agrees text (byteEscape text encoding p.scanner)
      (bytePiece encoding p s) := by
  have hle : p.offset ≤ min (p.offset + 2) text.length := by omega
  have hslice :
      (text.take (min (p.offset + 2) text.length)).drop p.offset =
        s.take 2 := by
    rw [← List.take_eq_take_min, ← h.drop_eq, List.take_drop]
  rw [byteEscape, bind_of_done state_apply, Place.scanner_offset,
    bind_of_done (slice_apply hle (Nat.min_le_right _ _)), hslice, bytePiece]
  cases readUnsigned? 16 (s.take 2) with
  | some n => exact agrees_forward h 2 _
  | none => exact agrees_reject h _

theorem agrees_codePointEscape (h : Leaves text p (c :: s)) (hc : c = '{')
    (hn : s.length < n) :
    Agrees text (codePointEscape text n p.scanner)
      (bracedPiece (p.skip 1) s) := by
  have hnext : Leaves text (p.skip 1) s := h.skip 1
  have hbrace := hnext.skip (s.takeWhile (· != '}')).length
  rw [drop_length_takeWhile] at hbrace
  rw [codePointEscape, bind_of_done (peek_apply h), List.head?_cons, hc,
    if_pos rfl,
    bind_of_done forward_apply,
    bind_of_done (takeWhile_apply hnext h.length_skip hn),
    bind_of_done (peek_apply hbrace), bracedPiece]
  cases hdrop : s.dropWhile (· != '}') with
  | nil => exact agrees_reject hbrace _
  | cons d rest =>
      obtain ⟨rfl, -⟩ := exists_brace_of_dropWhile hdrop
      rw [hdrop] at hbrace
      rw [List.head?_cons, if_pos rfl, bind_of_done forward_apply]
      cases readCodePoint? (s.takeWhile (· != '}')) with
      | some c => exact agrees_done (hbrace.skip 1) _
      | none => exact agrees_reject (hbrace.skip 1) _

theorem agrees_escape (h : Leaves text p (c :: s)) (hn : s.length < n) :
    Agrees text (escape text encoding n (p.skip 1).scanner)
      (escaped encoding (p.skip 1) s) := by
  have hnext : Leaves text (p.skip 1) s := h.skip 1
  rw [escape, bind_of_done (peek_apply hnext)]
  match s with
  | [] => exact agrees_reject hnext _
  | d :: r =>
      have hafter : Leaves text ((p.skip 1).skip 1) r := hnext.skip 1
      simp only [List.head?_cons]
      rw [bind_of_done forward_apply]
      split
      case h_7 =>
        rw [escaped_byte]
        exact agrees_byteEscape hafter hnext.length_skip
      case h_8 =>
        by_cases hbrace : r.head? = some '{'
        · obtain ⟨r, rfl⟩ := List.head?_eq_some_iff.mp hbrace
          rw [escaped_braced]
          exact agrees_codePointEscape hafter rfl (by
            simp only [List.length_cons] at hn
            omega)
        · rw [escaped_unbraced hbrace, codePointEscape,
            bind_of_done (peek_apply hafter),
            if_neg hbrace]
          exact agrees_reject hafter _
      case h_9 =>
        have hunknown : escaped encoding (p.skip 1) (d :: r) =
            .error (((p.skip 1).skip 1).fault (.unknownEscape d)) := by
          simp only [escaped, scanEscape]
          rfl
        rw [hunknown]
        exact agrees_reject hafter _
      all_goals exact agrees_done hafter _

/-! ## Literals -/

/-- What stands in a literal at a place. -/
def pieceOf (encoding : Encoding) (p : Place) (c : Char) (s : List Char) :
    Except Fault (Piece × Place × List Char) :=
  if c = '\\' then escaped encoding (p.skip 1) s
  else .ok (.char c, p.step c, s)

theorem scanned_cons (hquote : c ≠ '"') : scanned encoding p (c :: s) =
    pieceOf encoding p c s >>= fun (piece, q, t) =>
      (scanned encoding q t).map fun found => (piece :: found.1, found.2) := by
  unfold pieceOf
  by_cases hslash : c = '\\'
  · subst hslash
    rw [scanned_escape, if_pos rfl]
    cases escaped encoding (p.skip 1) s <;> rfl
  · rw [scanned_plain hquote hslash, if_neg hslash]
    rfl

theorem length_le_of_pieceOf {piece : Piece} {q : Place} {t : List Char}
    (hpiece : pieceOf encoding p c s = .ok (piece, q, t)) :
    t.length ≤ s.length := by
  unfold pieceOf at hpiece
  split at hpiece
  · obtain ⟨⟨_, _, rest⟩, -, hfound⟩ := exists_of_map_eq_ok hpiece
    cases hfound
    exact rest.property.le
  · cases hpiece
    exact Nat.le_refl _

theorem agrees_pieceFrom (h : Leaves text p (c :: s)) (hn : s.length < n) :
    Agrees text (pieceFrom text encoding n c (p.skip 1).scanner)
      (pieceOf encoding p c s) := by
  unfold pieceFrom pieceOf
  by_cases hfeed : c = '\n'
  · subst hfeed
    rw [if_pos rfl, bind_of_done beginLine_apply]
    exact agrees_done h.newLine _
  · rw [if_neg hfeed, Place.step_of_ne hfeed]
    split
    · exact agrees_escape h hn
    · exact agrees_done (h.skip 1) _

/-- The characters left in a literal are as many as its rounds at most. -/
theorem agrees_pieces (h : Leaves text p s) (hn : s.length < n) :
    Agrees text (pieces text encoding n p.scanner) (scanned encoding p s) := by
  induction n generalizing p s with
  | zero => exact absurd hn (Nat.not_lt_zero _)
  | succ n ih =>
      rw [pieces, bind_of_done (peek_apply h)]
      match s with
      | [] =>
          rw [scanned_nil]
          exact agrees_reject h _
      | c :: s =>
          have hlength : s.length < n := Nat.lt_of_succ_lt_succ hn
          simp only [List.head?_cons]
          rw [bind_of_done forward_apply]
          by_cases hquote : c = '"'
          · subst hquote
            rw [scanned_quote]
            exact agrees_done (h.skip 1) _
          · rw [if_neg hquote, scanned_cons hquote]
            apply (agrees_pieceFrom h hlength).bind
            intro piece q t hpiece hq
            exact (ih hq ((length_le_of_pieceOf hpiece).trans_lt hlength)).map

end Literals

/-! ## Tokens -/

section Tokens

variable {text s : List Char} {c : Char} {p : Place} {n : Nat}
variable {encoding : Encoding}

theorem taken_quote : taken encoding p '"' s =
    (scanned encoding (p.skip 1) s).map fun found =>
      (stringToken found.1, found.2) := by
  rw [taken, scanned, scanToken, if_neg (by decide), if_pos rfl]
  cases scanString encoding (p.skip 1) s <;> rfl

theorem taken_colon : taken encoding p ':' s = symbolToken (p.skip 1) s := by
  rw [taken, symbolToken, scanToken, if_neg (by decide), if_neg (by decide),
    if_pos rfl]
  cases scanSymbol? s with
  | none => rfl
  | some found => simp [Except.map, Place.skip_skip]

theorem taken_digit (hc : isDigit c = true) :
    taken encoding p c s = numeralToken p (c :: s) := by
  have hne : c ≠ '\n' ∧ c ≠ '"' ∧ c ≠ ':' := by
    refine ⟨?_, ?_, ?_⟩ <;> rintro rfl <;> cases hc
  obtain ⟨more, hmore⟩ := numberPart_head (s := s) hc
  rw [taken, numeralToken, scanToken, if_neg hne.1, if_neg hne.2.1,
    if_neg hne.2.2, if_pos hc]
  dsimp only
  cases numberToken (numberPart (c :: s)).1 (numberPart (c :: s)).2 with
  | error cause => rfl
  | ok kind => simp [Except.map, hmore]

theorem agrees_token (h : Leaves text p (c :: s)) (hn : (c :: s).length < n) :
    Agrees text (token text encoding n c p.scanner)
      (taken encoding p c s) := by
  have hlength : s.length < n := Nat.lt_of_succ_lt hn
  unfold token
  by_cases hfeed : c = '\n'
  · subst hfeed
    rw [if_pos rfl, bind_of_done forward_apply, bind_of_done beginLine_apply]
    exact agrees_done h.newLine _
  rw [if_neg hfeed]
  cases hmark : markToken? c with
  | some kind =>
      rw [taken, scanToken_mark hmark]
      exact agrees_forward h 1 _
  | none =>
      dsimp only
      by_cases hquote : c = '"'
      · subst hquote
        rw [if_pos rfl, taken_quote, string, bind_of_done forward_apply]
        exact (agrees_pieces (h.skip 1) hlength).map
      rw [if_neg hquote]
      by_cases hcolon : c = ':'
      · subst hcolon
        rw [if_pos rfl, taken_colon]
        exact agrees_symbol h hlength
      rw [if_neg hcolon]
      by_cases hdigit : isDigit c = true
      · rw [if_pos hdigit, taken_digit hdigit]
        exact agrees_number h hn
      rw [if_neg hdigit]
      rw [taken, scanToken, if_neg hfeed, if_neg hquote, if_neg hcolon,
        if_neg hdigit, hmark]
      by_cases hstart : isWordStart c = true
      · rw [if_pos hstart, if_pos hstart]
        exact agrees_word h hstart hn
      · rw [if_neg hstart, if_neg hstart]
        exact agrees_reject h _

end Tokens

/-! ## Whole texts -/

section Texts

variable {text s : List Char} {c : Char} {p : Place} {n : Nat}
variable {encoding : Encoding}

theorem comment_apply (h : Leaves text p (c :: s)) (hn : s.length < n) :
    Scanner.comment text n p.scanner =
      .done (Toy.comment p s)
        (p.skip (1 + (s.takeWhile (· != '\n')).length)).scanner := by
  have hnext : Leaves text (p.skip 1) s := h.skip 1
  rw [comment, bind_of_done state_apply, bind_of_done forward_apply,
    bind_of_done (takeWhile_apply hnext h.length_skip hn),
    bind_of_done state_apply,
    Place.skip_skip]
  simp only [Toy.comment, Place.scanner, Place.skip, pure_apply, Nat.add_assoc]

theorem lexFrom_blanks (encoding : Encoding) (p : Place) (s : List Char) :
    lexFrom encoding p s =
    lexFrom encoding (p.skip (s.takeWhile isSkipped).length)
      (s.dropWhile isSkipped) := by
  induction s generalizing p with
  | nil => rfl
  | cons c s ih =>
      by_cases hc : isSkipped c = true
      · rw [lexFrom_skipped hc, ih, List.takeWhile_cons_of_pos hc,
          List.dropWhile_cons_of_pos hc,
          Place.skip_skip, List.length_cons, Nat.add_comm]
      · rw [List.takeWhile_cons_of_neg hc, List.dropWhile_cons_of_neg hc]
        rfl

/-- What the lexer by offsets returns for what the lexer reads. -/
def whole (lexed : Lexed) : (List Item × List Comment) × Place × List Char :=
  ((lexed.items, lexed.comments), lexed.stop, [])

theorem map_whole_comment : (lexFrom encoding p ('#' :: s)).map whole =
    ((lexFrom encoding (p.skip (1 + (s.takeWhile (· != '\n')).length))
      (s.dropWhile (· != '\n'))).map whole).map
        fun found => ((found.1.1, Toy.comment p s :: found.1.2), found.2) := by
  rw [lexFrom_comment]
  cases lexFrom encoding (p.skip (1 + (s.takeWhile (· != '\n')).length))
    (s.dropWhile (· != '\n')) <;> rfl

theorem map_whole_token (hblank : isSkipped c = false) (hmark : c ≠ '#') :
    (lexFrom encoding p (c :: s)).map whole =
      taken encoding p c s >>= fun (kind, next, rest) =>
        ((lexFrom encoding next rest).map whole).map
          fun found =>
            ((.token ⟨kind, p, next.offset⟩ :: found.1.1, found.1.2),
              found.2) := by
  unfold taken
  cases hscan : scanToken encoding p c s with
  | error fault =>
      rw [lexFrom_scanToken_error hblank hmark hscan]
      rfl
  | ok found =>
      obtain ⟨kind, next, left⟩ := found
      rw [lexFrom_token hblank hmark hscan]
      dsimp only [Except.map, bind, Except.bind]
      cases lexFrom encoding next left.val <;> rfl

theorem length_le_of_taken {kind : TokenKind} {next : Place} {rest : List Char}
    (htaken : taken encoding p c s = .ok (kind, next, rest)) :
    rest.length ≤ s.length := by
  obtain ⟨⟨_, _, left⟩, -, hfound⟩ := exists_of_map_eq_ok htaken
  cases hfound
  exact left.property

/-- The lexer by offsets reads what the lexer reads. -/
theorem agrees_items (h : Leaves text p s) (hn : s.length + 1 < n) :
    Agrees text (items text encoding n p.scanner)
      ((lexFrom encoding p s).map whole) := by
  induction n generalizing p s with
  | zero => exact absurd hn (Nat.not_lt_zero _)
  | succ n ih =>
      have hlength :
          (s.takeWhile isSkipped).length + (s.dropWhile isSkipped).length =
            s.length := by
        rw [← List.length_append, List.takeWhile_append_dropWhile]
      have hhere := h.skip (s.takeWhile isSkipped).length
      rw [drop_length_takeWhile] at hhere
      rw [items, bind_of_done (passWhile_apply h (by omega)),
        bind_of_done (here_apply hhere),
        bind_of_done (peek_apply hhere), lexFrom_blanks]
      generalize p.skip (s.takeWhile isSkipped).length = q at hhere ⊢
      cases hrest : s.dropWhile isSkipped with
      | nil =>
          rw [hrest] at hhere
          rw [lexFrom_nil]
          exact agrees_done hhere _
      | cons c r =>
          have hblank : isSkipped c = false := by
            have hhead := List.head?_dropWhile_not isSkipped s
            rw [hrest] at hhead
            simpa using hhead
          rw [hrest] at hhere
          rw [hrest, List.length_cons] at hlength
          simp only [List.head?_cons]
          by_cases hmark : c = '#'
          · subst hmark
            have hle := length_dropWhile_le (· != '\n') r
            have hnext := hhere.skip_succ (r.takeWhile (· != '\n')).length
            rw [drop_length_takeWhile] at hnext
            rw [if_pos rfl, bind_of_done (comment_apply hhere (by omega)),
              map_whole_comment]
            exact (ih hnext (by omega)).map
          · have hshort : (c :: r).length < n := by
              rw [List.length_cons]
              omega
            rw [if_neg hmark, map_whole_token hblank hmark]
            refine (agrees_token hhere hshort).bind
              fun kind next rest htaken hnext => ?_
            have hle := length_le_of_taken htaken
            rw [bind_of_done state_apply]
            exact (ih hnext (by omega)).map

end Texts

end Scanner

end Reparse.Toy
