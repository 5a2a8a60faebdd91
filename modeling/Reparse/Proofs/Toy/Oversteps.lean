import Reparse.Proofs.Toy.Faults
import Reparse.Proofs.Toy.Positions
import Reparse.Proofs.Toy.Tokens

/-!
# Where faults stand

The lexer passes over a text in steps, and each of them moves the place as the
characters do that it takes. A fault that stops it, or that the parser finds at
a token, stands within the line or right behind it.

Inside an escape the place is moved by the length of the escape alone.  Three
escapes, all of them faulty, do not keep to a line or to the text: a backslash
at the end of a line, a code point with a line feed before its closing brace,
and a byte of one digit at the end of the text.  For these the column lies
beyond the line.
-/

namespace Reparse.Toy

open Text

/-! ## What is taken for a token -/

section Scans

variable {encoding : Encoding} {p next : Place} {c : Char} {s name : List Char}

theorem fractionPart_leads (s : List Char) : Leads (fractionPart s) s := by
  unfold fractionPart
  split
  · next d r =>
      split
      · next hd =>
          have hfeed : d ≠ '\n' := by
            rintro rfl
            cases hd
          exact .cons (by decide) (.cons hfeed (leads_takeWhile rfl))
      · exact .nil
  · exact .nil

theorem exponentPart_leads (s : List Char) : Leads (exponentPart s) s := by
  have hdigit : ∀ {d : Char}, isDigit d = true → d ≠ '\n' := by
    rintro d hd rfl
    cases hd
  unfold exponentPart
  split
  · next e c r =>
      split
      · next he =>
          have hfeed : e ≠ '\n' := by rcases he with rfl | rfl <;> decide
          split
          · next hc =>
              exact .cons hfeed (.cons (hdigit hc) (leads_takeWhile rfl))
          split
          · next hsign =>
              have hc : c ≠ '\n' := by rcases hsign with rfl | rfl <;> decide
              split
              · next d r =>
                  split
                  · next hd =>
                      exact .cons hfeed
                        (.cons hc (.cons (hdigit hd) (leads_takeWhile rfl)))
                  · exact .nil
              · exact .nil
          · exact .nil
      · exact .nil
  · exact .nil

theorem numberPart_leads (s : List Char) : Leads (numberPart s).1 s := by
  unfold numberPart
  refine .append (.append (leads_takeWhile rfl) (fractionPart_leads _)) ?_
  rw [List.length_append]
  exact exponentPart_leads _

theorem drop_length_takeWhile (q : Char → Bool) (s : List Char) :
    s.drop (s.takeWhile q).length = s.dropWhile q := by
  have hdrop :
      (s.takeWhile q ++ s.dropWhile q).drop (s.takeWhile q).length =
        s.dropWhile q :=
    List.drop_left
  rwa [List.takeWhile_append_dropWhile] at hdrop

theorem scanSymbol?_leads {left : Suffix s}
    (hscan : scanSymbol? s = some (name, left)) :
    Leads name s ∧ left.val = s.drop name.length := by
  unfold scanSymbol? at hscan
  split at hscan
  · cases hscan
  · next c r =>
      split at hscan
      · next hc =>
          cases hscan
          have hfeed : c ≠ '\n' := by
            rintro rfl
            cases hc
          refine ⟨.cons hfeed (leads_takeWhile rfl), ?_⟩
          exact (drop_length_takeWhile isWordChar r).symm
      · split at hscan
        · next hminus =>
            subst hminus
            split at hscan
            · cases hscan
              exact ⟨.cons (by decide) (.cons (by decide) .nil), rfl⟩
            · cases hscan
              exact ⟨.cons (by decide) .nil, rfl⟩
        · split at hscan
          · next hoperator =>
              cases hscan
              have hfeed : c ≠ '\n' := by
                rcases hoperator with rfl | rfl | rfl <;> decide
              exact ⟨.cons hfeed .nil, rfl⟩
          · cases hscan

/-- Taking a token moves the place as its characters do. -/
theorem moves_of_scanToken {kind : TokenKind} {left : Suffix s}
    (hscan : scanToken encoding p c s = .ok (kind, next, left)) :
    Moves p (c :: s) next left.val := by
  unfold scanToken at hscan
  split at hscan
  · next hfeed =>
      cases hscan
      subst hfeed
      exact ⟨['\n'], rfl, Place.step_lineFeed.symm⟩
  next hfeed =>
  split at hscan
  · next hquote =>
      subst hquote
      split at hscan
      · next pieces place rest hrest hstring =>
          cases hscan
          have hscanned :
              scanned encoding (p.skip 1) s = .ok (pieces, next, rest) := by
            rw [scanned, hstring]
            rfl
          obtain ⟨body, rfl, -, rfl⟩ := exists_inside_of_scanned hscanned
          refine ⟨'"' :: (body ++ ['"']), by simp, ?_⟩
          rw [Place.walk_cons, Place.walk_append, Place.step_of_ne (by decide),
            Place.walk_cons,
            Place.step_of_ne (by decide), Place.walk_nil]
      · cases hscan
  split at hscan
  · next hcolon =>
      split at hscan
      · next hsymbol =>
          cases hscan
          obtain ⟨hleads, hleft⟩ := scanSymbol?_leads hsymbol
          have hmoves := (hleads.cons hfeed).moves (p := p)
          rw [hleft, Nat.add_comm]
          exact hmoves
      · cases hscan
  split at hscan
  · next hdigit =>
      dsimp only at hscan
      split at hscan
      · cases hscan
        obtain ⟨more, hmore⟩ := numberPart_head (s := s) hdigit
        have hmoves := (numberPart_leads (c :: s)).moves (p := p)
        simp only [hmore, List.length_cons, List.drop_succ_cons] at hmoves ⊢
        exact hmoves
      · cases hscan
  split at hscan
  · next hword =>
      cases hscan
      have hmoves :=
        ((leads_takeWhile (s := s) (p := isWordChar) rfl).cons hfeed).moves
          (p := p)
      rw [List.length_cons, List.drop_succ_cons,
        drop_length_takeWhile] at hmoves
      exact hmoves
  split at hscan
  · cases hscan
    exact (Leads.nil.cons hfeed).moves
  · cases hscan

end Scans

/-! ## Steps of the lexer -/

/-- One step of the lexer: over a blank, a comment or a token. -/
inductive Passes (encoding : Encoding) :
    Place → List Char → Place → List Char → Prop where
  | blank {p : Place} {c : Char} {s : List Char}
      (hblank : isSkipped c = true) :
      Passes encoding p (c :: s) (p.skip 1) s
  | comment {p : Place} {s : List Char} :
      Passes encoding p ('#' :: s)
        (p.skip (1 + (s.takeWhile (· != '\n')).length))
        (s.dropWhile (· != '\n'))
  | token {p next : Place} {c : Char} {s : List Char} {kind : TokenKind}
      {left : Suffix s} (hblank : isSkipped c = false) (hmark : c ≠ '#')
      (hscan : scanToken encoding p c s = .ok (kind, next, left)) :
      Passes encoding p (c :: s) next left.val

/-- Steps of the lexer, one after the other. -/
inductive Reaches (encoding : Encoding) :
    Place → List Char → Place → List Char → Prop where
  | here {p : Place} {s : List Char} : Reaches encoding p s p s
  | step {p q r : Place} {s t u : List Char}
      (hpasses : Passes encoding p s q t)
      (hreaches : Reaches encoding q t r u) : Reaches encoding p s r u

section Steps

variable {encoding : Encoding} {p q : Place} {c : Char} {s t : List Char}
variable {fault : Fault}

theorem Passes.moves (hpasses : Passes encoding p s q t) : Moves p s q t := by
  cases hpasses with
  | blank hblank =>
      have hfeed : ∀ {c : Char}, isSkipped c = true → c ≠ '\n' := by
        rintro c hc rfl
        cases hc
      exact (Leads.nil.cons (hfeed hblank)).moves
  | @comment s =>
      have hcomment : Leads ('#' :: s.takeWhile (· != '\n')) ('#' :: s) :=
        .cons (by decide) (leads_takeWhile rfl)
      have hmoves := hcomment.moves (p := p)
      rw [List.length_cons, List.drop_succ_cons, drop_length_takeWhile,
        Nat.add_comm] at hmoves
      exact hmoves
  | token _ _ hscan => exact moves_of_scanToken hscan

theorem Reaches.moves (hreaches : Reaches encoding p s q t) :
    Moves p s q t := by
  induction hreaches with
  | here => exact .refl _ _
  | step hpasses _ ih => exact hpasses.moves.trans ih

/-- A step adds to what is read from its end on. -/
theorem Passes.exists_lexFrom_eq (hpasses : Passes encoding p s q t) :
    ∃ add : Lexed → Lexed, lexFrom encoding p s =
      (lexFrom encoding q t).map add := by
  cases hpasses with
  | blank hblank =>
      refine ⟨id, ?_⟩
      rw [lexFrom_skipped hblank]
      cases lexFrom encoding (p.skip 1) t <;> rfl
  | comment => exact ⟨_, lexFrom_comment⟩
  | token hblank hmark hscan => exact ⟨_, lexFrom_token hblank hmark hscan⟩

/-- A fault that is met after some steps is what the whole is rejected for. -/
theorem Reaches.lexFrom_error (hreaches : Reaches encoding p s q t)
    (herror : lexFrom encoding q t = .error fault) :
    lexFrom encoding p s = .error fault := by
  induction hreaches with
  | here => exact herror
  | step hpasses _ ih =>
      obtain ⟨add, hlex⟩ := hpasses.exists_lexFrom_eq
      rw [hlex, ih herror]
      rfl

theorem lexFrom_scanToken_error (hblank : isSkipped c = false)
    (hmark : c ≠ '#') (hscan : scanToken encoding p c s = .error fault) :
    lexFrom encoding p (c :: s) = .error fault := by
  rw [lexFrom, if_neg (by simp [hblank]), if_neg hmark]
  simp only [hscan]

/-- The lexer rejects a text for a token that it cannot take. -/
theorem exists_scanToken_of_lexFrom
    (herror : lexFrom encoding p s = .error fault) :
    ∃ q c t, Reaches encoding p s q (c :: t) ∧
      scanToken encoding q c t = .error fault := by
  fun_induction lexFrom encoding p s with
  | case1 => cases herror
  | case2 p c r hblank ih =>
      obtain ⟨q, d, t, hreaches, hscan⟩ := ih herror
      exact ⟨q, d, t, .step (.blank hblank) hreaches, hscan⟩
  | case3 => cases herror
  | case4 p r length fault' hmore hblank ih =>
      cases herror
      obtain ⟨q, d, t, hreaches, hscan⟩ := ih hmore
      exact ⟨q, d, t, .step .comment hreaches, hscan⟩
  | case5 p c r hblank hmark fault' hscan =>
      cases herror
      exact ⟨p, c, r, .here, hscan⟩
  | case6 => cases herror
  | case7 p c r hblank hmark kind next rest hrest hscan fault' hmore ih =>
      cases herror
      obtain ⟨q, d, t, hreaches, hscan'⟩ := ih hmore
      exact ⟨q, d, t,
        .step (.token (by simpa using hblank) hmark hscan) hreaches, hscan'⟩

/-- The lexer reaches every token that it yields and the end of the text. -/
theorem reaches_of_lexFrom {lexed : Lexed}
    (hlex : lexFrom encoding p s = .ok lexed) :
    (∀ t ∈ lexed.tokens, ∃ rest, Reaches encoding p s t.start rest) ∧
      Reaches encoding p s lexed.stop [] := by
  fun_induction lexFrom encoding p s generalizing lexed with
  | case1 =>
      cases hlex
      exact ⟨List.forall_mem_nil _, .here⟩
  | case2 p c r hblank ih =>
      obtain ⟨htokens, hstop⟩ := ih hlex
      refine ⟨fun t ht => ?_, .step (.blank hblank) hstop⟩
      obtain ⟨rest, hreaches⟩ := htokens t ht
      exact ⟨rest, .step (.blank hblank) hreaches⟩
  | case3 p r length lexed' hmore hblank =>
      rename_i ih
      cases hlex
      obtain ⟨htokens, hstop⟩ := ih hmore
      refine ⟨fun t ht => ?_, .step .comment hstop⟩
      obtain ⟨rest, hreaches⟩ := htokens t ht
      exact ⟨rest, .step .comment hreaches⟩
  | case4 => cases hlex
  | case5 => cases hlex
  | case6 p c r hblank hmark kind next rest hrest hscan lexed' hmore ih =>
      cases hlex
      obtain ⟨htokens, hstop⟩ := ih hmore
      have hpasses := Passes.token (by simpa using hblank) hmark hscan
      refine ⟨List.forall_mem_cons.mpr ⟨⟨c :: r, .here⟩, fun t ht => ?_⟩,
        .step hpasses hstop⟩
      obtain ⟨rest', hreaches⟩ := htokens t ht
      exact ⟨rest', .step hpasses hreaches⟩
  | case7 => cases hlex

end Steps

/-! ## Faults in literals -/

/-- What stands behind a backslash where the place leaves the line: the end of
the line, a code point with a line feed before its brace, or a byte of one
digit at the end of the text. -/
inductive Trips : List Char → Prop where
  | lineFeed {s : List Char} : Trips ('\n' :: s)
  | codePoint {hex s : List Char} (hhex : '}' ∉ hex) :
      Trips ('u' :: '{' :: (hex ++ '\n' :: s))
  | byte {d : Char} {n : Nat} (hdigit : HexNumeral [d] n) : Trips ['x', d]

/-- The fault stands at `p` or behind it on its line, where `s` is in front. -/
def FallsWithin (p : Place) (s : List Char) (fault : Fault) : Prop :=
  ∃ n cause, n ≤ (lineRest s).length ∧ fault = (p.skip n).fault cause

/-- The fault stands in a column beyond the line, where `s` is in front of
`p`. -/
def FallsBeyond (p : Place) (s : List Char) (fault : Fault) : Prop :=
  ∃ n cause, (lineRest s).length < n ∧ fault = (p.skip n).fault cause

section Literals

variable {encoding : Encoding} {p : Place} {c : Char} {e s t : List Char}
variable {fault : Fault}

theorem Leads.fallsWithin (ht : Leads t s) (cause : Cause) :
    FallsWithin p s ((p.skip t.length).fault cause) :=
  ⟨t.length, cause, ht.length_le, rfl⟩

theorem fallsWithin_here (cause : Cause) : FallsWithin p s (p.fault cause) :=
  ⟨0, cause, Nat.zero_le _, rfl⟩

theorem fallsWithin_next (hc : c ≠ '\n') (cause : Cause) :
    FallsWithin p (c :: s) ((p.skip 1).fault cause) :=
  (Leads.nil.cons hc).fallsWithin cause

theorem FallsWithin.next (hc : c ≠ '\n')
    (hfault : FallsWithin (p.skip 1) s fault) :
    FallsWithin p (c :: s) fault := by
  obtain ⟨n, cause, hn, rfl⟩ := hfault
  refine ⟨1 + n, cause, ?_, by rw [Place.skip_skip]⟩
  have hline : lineRest (c :: s) = c :: lineRest s :=
    List.takeWhile_cons_of_pos (by simpa using hc)
  rw [hline, List.length_cons]
  omega

theorem trips_codePoint_of_mem {r : List Char}
    (hfeed : '\n' ∈ r.takeWhile (· != '}')) : Trips ('u' :: '{' :: r) := by
  obtain ⟨hex, s, hsplit⟩ := List.append_of_mem hfeed
  have hhex : '}' ∉ hex := by
    intro hmem
    have hne := List.mem_takeWhile_imp (hsplit ▸ List.mem_append_left _ hmem)
    simp at hne
  have hr : r = hex ++ '\n' :: (s ++ r.dropWhile (· != '}')) := by
    have happend := List.takeWhile_append_dropWhile (p := (· != '}')) (l := r)
    rw [hsplit] at happend
    simpa using happend.symm
  rw [hr]
  exact .codePoint hhex

/-- A code point without a line feed is rejected at its closing brace or at the
end of the text. -/
theorem fallsWithin_of_codePoint {r : List Char}
    (hfeed : '\n' ∉ r.takeWhile (· != '}'))
    (herror : escaped encoding p ('u' :: '{' :: r) = .error fault) :
    FallsWithin p ('u' :: '{' :: r) fault := by
  have hopen : ∀ {taken : List Char}, Leads taken r →
      Leads ('u' :: '{' :: taken) ('u' :: '{' :: r) :=
    fun htaken => .cons (by decide) (.cons (by decide) htaken)
  simp only [escaped, scanEscape] at herror
  split at herror
  · cases herror
    have hr :=
      (List.takeWhile_append_dropWhile (p := (· != '}')) (l := r)).symm
    have hhex : Leads (r.takeWhile (· != '}')) r := ⟨⟨_, hr⟩, hfeed⟩
    rw [Place.skip_skip, ← Nat.add_comm _ 1, ← Nat.add_comm _ 1]
    exact (hopen hhex).fallsWithin _
  · next hdrop =>
      split at herror
      · cases herror
      · cases herror
        obtain ⟨rfl, hr⟩ := exists_brace_of_dropWhile hdrop
        have hhex : Leads (r.takeWhile (· != '}') ++ ['}']) r :=
          ⟨⟨_, by simpa using hr⟩, by simpa using hfeed⟩
        have hfault := (hopen hhex).fallsWithin (p := p)
        simp only [List.length_cons, List.length_append,
          List.length_nil] at hfault
        rw [Place.skip_skip, Place.skip_skip, ← Nat.add_comm _ 1,
          ← Nat.add_comm _ 1]
        exact hfault _

/-- An escape that is rejected does not leave the line, or trips. -/
theorem fallsWithin_or_trips_of_escaped
    (herror : escaped encoding p e = .error fault) :
    FallsWithin p e fault ∨ Trips e := by
  by_cases hcode : ∃ r, e = 'u' :: '{' :: r
  · obtain ⟨r, rfl⟩ := hcode
    by_cases hfeed : '\n' ∈ r.takeWhile (· != '}')
    · exact .inr (trips_codePoint_of_mem hfeed)
    · exact .inl (fallsWithin_of_codePoint hfeed herror)
  unfold escaped scanEscape at herror
  split at herror
  · cases herror
    exact .inl (fallsWithin_here _)
  dsimp only at herror
  split at herror
  case h_7 r _ =>
      split at herror
      · cases herror
      · cases herror
        exact .inl (fallsWithin_next (by decide) _)
  case h_8 r _ =>
      split at herror
      · exact absurd ⟨_, rfl⟩ hcode
      · cases herror
        exact .inl (fallsWithin_next (by decide) _)
  case h_9 c r _ _ _ _ _ _ _ _ _ =>
      cases herror
      by_cases hfeed : c = '\n'
      · subst hfeed
        exact .inr .lineFeed
      · exact .inl (fallsWithin_next hfeed _)
  all_goals cases herror

theorem exists_escaped_codePoint {r hex : List Char}
    (hhex : r.takeWhile (· != '}') = hex) (hfeed : '\n' ∈ hex) :
    ∃ n cause, hex.length + 2 ≤ n ∧
      escaped encoding p ('u' :: '{' :: r) =
        .error ((p.skip n).fault cause) := by
  simp only [escaped, scanEscape, hhex]
  split
  · refine ⟨1 + (1 + hex.length), .unterminatedUnicodeEscape, by omega, ?_⟩
    rw [Place.skip_skip]
    rfl
  · split
    · next hread =>
        exact absurd hfeed (readCodePoint?_eq_some_iff.mp hread).not_mem.1
    · refine ⟨1 + (1 + hex.length) + 1,
        .invalidUnicodeEscape (String.ofList hex), by omega, ?_⟩
      rw [Place.skip_skip, Place.skip_skip]
      rfl

/-- Where an escape trips, the literal is rejected for a fault beyond the
line. -/
theorem Trips.exists_fallsBeyond (encoding : Encoding) (p : Place)
    (htrips : Trips e) :
    ∃ fault, scanned encoding p ('\\' :: e) = .error fault ∧
      FallsBeyond p ('\\' :: e) fault := by
  rw [scanned_escape]
  cases htrips with
  | @lineFeed s =>
      have hshort : (lineRest (['\\'] ++ '\n' :: s)).length ≤ 1 :=
        length_lineRest_le
      exact ⟨_, rfl, 2, _, Nat.lt_succ_of_le hshort, rfl⟩
  | @codePoint hex s hhex =>
      have htake : (hex ++ '\n' :: s).takeWhile (· != '}') =
          hex ++ '\n' :: s.takeWhile (· != '}') := by
        rw [List.takeWhile_append_of_pos (bne_of_notMem hhex),
          List.takeWhile_cons_of_pos (by decide)]
      have hshort :
          (lineRest ('\\' :: 'u' :: '{' :: (hex ++ '\n' :: s))).length ≤
            hex.length + 3 :=
        length_lineRest_le (s := '\\' :: 'u' :: '{' :: hex)
      obtain ⟨n, cause, hlong, hescape⟩ :=
        exists_escaped_codePoint (p := p.skip 1) htake (by simp)
      rw [List.length_append, List.length_cons] at hlong
      rw [hescape, Place.skip_skip]
      exact ⟨_, rfl, 1 + n, cause, by omega, rfl⟩
  | @byte d n hdigit =>
      have hread : readUnsigned? 16 [d] = some n :=
        readUnsigned?_eq_some_iff.mpr hdigit
      have hescape : escaped encoding (p.skip 1) ['x', d] =
          .ok (.ofByte encoding n, p.skip 4, []) := by
        simp [escaped, scanEscape, hread, Except.map, Place.skip_skip]
      have hshort : (lineRest ['\\', 'x', d]).length ≤ 3 :=
        (List.takeWhile_prefix _).length_le
      rw [hescape]
      dsimp only
      rw [scanned_nil]
      exact ⟨_, rfl, 4, _, Nat.lt_succ_of_le hshort, rfl⟩

/-- A literal that is rejected is taken up to a fault on the line that is
reached or up to an escape that trips. -/
theorem exists_inside_of_scanned_error {s : List Char} {p : Place}
    (herror : scanned encoding p s = .error fault) :
    ∃ body pieces rest, s = body ++ rest ∧
      Inside Piece.char (Escape encoding) body pieces ∧
      (FallsWithin (p.walk body) rest fault ∨ ∃ e, rest = '\\' :: e ∧
        Trips e) := by
  match s with
  | [] =>
      rw [scanned_nil] at herror
      cases herror
      exact ⟨[], [], [], rfl, .nil, .inl (fallsWithin_here _)⟩
  | c :: s =>
      by_cases hquote : c = '"'
      · subst hquote
        rw [scanned_quote] at herror
        cases herror
      by_cases hslash : c = '\\'
      · subst hslash
        rw [scanned_escape] at herror
        split at herror
        · next fault' hescape =>
            cases herror
            refine ⟨[], [], '\\' :: s, rfl, .nil, ?_⟩
            rcases fallsWithin_or_trips_of_escaped hescape with
              hwithin | htrips
            · exact .inl (hwithin.next (by decide))
            · exact .inr ⟨s, rfl, htrips⟩
        next piece middle left hescape =>
        rcases exists_escape_of_escaped hescape with
          ⟨e, rfl, he, rfl⟩ | ⟨d, n, rfl, hd, -, -⟩
        · obtain ⟨body, pieces, rest, rfl, hbody, hfault⟩ :=
            exists_inside_of_scanned_error (eq_error_of_map herror)
          refine ⟨'\\' :: (e ++ body), piece :: pieces, rest, by simp,
            .escape he hbody, ?_⟩
          rwa [Place.walk_cons, Place.walk_append,
            Place.step_of_ne (by decide)]
        · exact ⟨[], [], _, rfl, .nil, .inr ⟨_, rfl, .byte hd⟩⟩
      · rw [scanned_plain hquote hslash] at herror
        obtain ⟨body, pieces, rest, rfl, hbody, hfault⟩ :=
          exists_inside_of_scanned_error (eq_error_of_map herror)
        exact ⟨c :: body, .char c :: pieces, rest, rfl,
          .plain hquote hslash hbody, hfault⟩
termination_by s.length

/-- A token that is rejected is a literal, or the fault stands on the line. -/
theorem fallsWithin_or_scanned_of_scanToken
    (herror : scanToken encoding p c s = .error fault) :
    FallsWithin p (c :: s) fault ∨ c = '"' ∧
      scanned encoding (p.skip 1) s = .error fault := by
  unfold scanToken at herror
  split at herror
  · cases herror
  next hfeed =>
  split at herror
  · next hquote =>
      split at herror
      · cases herror
      · next hstring =>
          cases herror
          refine .inr ⟨hquote, ?_⟩
          rw [scanned, hstring]
          rfl
  split at herror
  · split at herror
    · cases herror
    · cases herror
      exact .inl (fallsWithin_next hfeed _)
  split at herror
  · dsimp only at herror
    split at herror
    · cases herror
    · cases herror
      exact .inl ((numberPart_leads (c :: s)).fallsWithin _)
  split at herror
  · cases herror
  split at herror
  · cases herror
  · cases herror
    exact .inl (fallsWithin_here _)

theorem scanToken_literal
    (hscan : scanned encoding (p.skip 1) s = .error fault) :
    scanToken encoding p '"' s = .error fault := by
  have hstring : scanString encoding (p.skip 1) s = .error fault :=
    eq_error_of_map hscan
  rw [scanToken, if_neg (by decide), if_pos rfl, hstring]

end Literals

/-! ## Texts -/

/-- The lexer comes to a literal in which, behind parts that it takes, an
escape trips. -/
def Oversteps (encoding : Encoding) (text : List Char) : Prop :=
  ∃ p body pieces e,
    Reaches encoding .start text p ('"' :: (body ++ '\\' :: e)) ∧
    Inside Piece.char (Escape encoding) body pieces ∧ Trips e

section Texts

variable {encoding : Encoding} {text : List Char} {p : Place}
variable {s body rest : List Char}
variable {fault : Fault}

theorem FallsWithin.inText (hfault : FallsWithin p s fault)
    (hstands : Stands text p s) :
    InText text fault.line fault.column := by
  obtain ⟨n, cause, hn, rfl⟩ := hfault
  exact (hstands.inText_iff n).mpr hn

theorem FallsBeyond.not_inText (hfault : FallsBeyond p s fault)
    (hstands : Stands text p s) :
    ¬ InText text fault.line fault.column := by
  obtain ⟨n, cause, hn, rfl⟩ := hfault
  exact mt (hstands.inText_iff n).mp (Nat.not_le_of_lt hn)

theorem moves_literal :
    Moves p ('"' :: (body ++ rest)) ((p.skip 1).walk body) rest :=
  ⟨'"' :: body, rfl, by rw [Place.walk_cons, Place.step_of_ne (by decide)]⟩

/-- The lexer rejects a text for a fault on a line of it, or it oversteps. -/
theorem fallsWithin_or_oversteps_of_lex
    (herror : lex encoding text = .error fault) :
    (∃ p s, Stands text p s ∧ FallsWithin p s fault) ∨
      Oversteps encoding text := by
  obtain ⟨p, c, s, hreaches, hscan⟩ := exists_scanToken_of_lexFrom herror
  rcases fallsWithin_or_scanned_of_scanToken hscan with
    hwithin | ⟨rfl, hliteral⟩
  · exact .inl ⟨p, c :: s, hreaches.moves, hwithin⟩
  obtain ⟨body, pieces, rest, rfl, hbody, hwithin | ⟨e, rfl, htrips⟩⟩ :=
    exists_inside_of_scanned_error hliteral
  · exact .inl ⟨_, rest, hreaches.moves.trans moves_literal, hwithin⟩
  · exact .inr ⟨p, body, pieces, e, hreaches, hbody, htrips⟩

/-- Where the lexer oversteps, it rejects the text for a fault beyond the
line. -/
theorem Oversteps.exists_fallsBeyond (hoversteps : Oversteps encoding text) :
    ∃ fault, lex encoding text = .error fault ∧
      ∃ p s, Stands text p s ∧ FallsBeyond p s fault := by
  obtain ⟨p, body, pieces, e, hreaches, hbody, htrips⟩ := hoversteps
  obtain ⟨fault, hscanned, hbeyond⟩ :=
    htrips.exists_fallsBeyond encoding ((p.skip 1).walk body)
  refine ⟨fault, hreaches.lexFrom_error ?_, _, _,
    hreaches.moves.trans moves_literal, hbeyond⟩
  have hliteral :
      scanned encoding (p.skip 1) (body ++ '\\' :: e) = .error fault := by
    rw [scanned_inside hbody, hscanned]
    rfl
  exact lexFrom_scanToken_error rfl (by decide) (scanToken_literal hliteral)

/-- The parser reports tokens and the end of the text, which the lexer has
reached. -/
theorem exists_stands_of_locates {lexed : Lexed} {identification : String}
    {ts : List Token} (hlex : lex encoding text = .ok lexed)
    (hts : ts ⊆ lexed.tokens)
    (hfault : Context.Locates ⟨identification, lexed.stop⟩ ts fault) :
    ∃ p s, Stands text p s ∧ FallsWithin p s fault := by
  obtain ⟨htokens, hstop⟩ := reaches_of_lexFrom hlex
  obtain ⟨found, cause, hsubset, rfl⟩ := hfault
  cases found with
  | nil => exact ⟨lexed.stop, [], hstop.moves, fallsWithin_here cause⟩
  | cons t more =>
      obtain ⟨rest, hreaches⟩ := htokens t (hts (hsubset List.mem_cons_self))
      exact ⟨t.start, rest, hreaches.moves, fallsWithin_here cause⟩

/-- A program is rejected for a fault on a line of its text, or for one beyond
the line, the latter exactly if the lexer oversteps. -/
theorem exists_stands_of_readProgram {identification : String}
    (hread : readProgram encoding identification text = .error fault) :
    ∃ p s, Stands text p s ∧
      ((FallsWithin p s fault ∧ ¬ Oversteps encoding text) ∨
        (FallsBeyond p s fault ∧ Oversteps encoding text)) := by
  by_cases hoversteps : Oversteps encoding text
  · obtain ⟨fault', hlex, p, s, hstands, hbeyond⟩ :=
      hoversteps.exists_fallsBeyond
    rw [readProgram, hlex] at hread
    cases hread
    exact ⟨p, s, hstands, .inr ⟨hbeyond, hoversteps⟩⟩
  have hwithin : ∃ p s, Stands text p s ∧ FallsWithin p s fault := by
    unfold readProgram at hread
    cases hlex : lex encoding text with
    | error fault' =>
        rw [hlex] at hread
        cases hread
        exact (fallsWithin_or_oversteps_of_lex hlex).resolve_right hoversteps
    | ok lexed =>
        rw [hlex] at hread
        dsimp only at hread
        split at hread
        · next hstatements =>
            cases hread
            have hlocates := locates_statements hstatements
            exact exists_stands_of_locates hlex
              (skipSeparators_subset _) hlocates
        · cases hread
  obtain ⟨p, s, hstands, hfault⟩ := hwithin
  exact ⟨p, s, hstands, .inl ⟨hfault, hoversteps⟩⟩

end Texts

/-- Where a program is rejected, the line is one of the text.  The column is
one of the line, or right behind it, unless the lexer oversteps; then the
column lies beyond. -/
theorem syntaxError_inText_iff {keep : Bool} {source : Source}
    {identification : String} {error : SyntaxError}
    (hparse : parse keep source identification = .error error) :
    (1 ≤ error.line ∧ error.line ≤ (source.text.splitOn '\n').length ∧
      1 ≤ error.column) ∧
      (InText source.text error.line error.column ↔
        ¬ Oversteps source.encoding source.text) := by
  unfold parse at hparse
  split at hparse
  · next fault hread =>
      cases hparse
      obtain ⟨p, s, hstands, hfault⟩ := exists_stands_of_readProgram hread
      have hline := hstands.line_mem
      have hcolumn := hstands.one_le_column
      rcases hfault with ⟨hwithin, hoversteps⟩ | ⟨hbeyond, hoversteps⟩
      · have hinText := hwithin.inText hstands
        obtain ⟨n, cause, -, rfl⟩ := hwithin
        exact ⟨⟨hline.1, hline.2, Nat.le_add_right_of_le hcolumn⟩,
          iff_of_true hinText hoversteps⟩
      · have hinText := hbeyond.not_inText hstands
        obtain ⟨n, cause, -, rfl⟩ := hbeyond
        exact ⟨⟨hline.1, hline.2, Nat.le_add_right_of_le hcolumn⟩,
          iff_of_false hinText (not_not_intro hoversteps)⟩
  · cases hparse

/-- A literal of four characters that ends within a byte: the fault is reported
in column six. -/
theorem syntaxError_inText_iff_shortByte :
    ∃ error : SyntaxError, parse true (.ofText "\"\\xf".toList) "input" =
      .error error ∧
      error.line = 1 ∧ error.column = 6 ∧
      ¬ InText (Source.ofText "\"\\xf".toList).text error.line
        error.column := by
  have hdone :
      (parse true (.ofText "\"\\xf".toList) "input").map (fun _ => ()) =
      .error ⟨"input", 1, 6, "unterminated string"⟩ := by decide +kernel
  have htext :
      (Source.ofText "\"\\xf".toList).text = ['"', '\\', 'x', 'f'] := by
    decide +kernel
  have hdigit : HexNumeral ['f'] 15 :=
    .unsigned (by simp) (by simp [IsHexDigit])
  have hoversteps : Oversteps .utf8 (Source.ofText "\"\\xf".toList).text := by
    rw [htext]
    exact ⟨.start, [], [], ['x', 'f'], .here, .nil, .byte hdigit⟩
  have hparse := eq_error_of_map hdone
  refine ⟨_, hparse, rfl, rfl, fun hinText => ?_⟩
  exact (syntaxError_inText_iff hparse).2.mp hinText hoversteps

end Reparse.Toy
