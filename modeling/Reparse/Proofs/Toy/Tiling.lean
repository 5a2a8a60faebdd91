import Reparse.Proofs.Toy.Layout
import Mathlib.Data.List.DropRight

/-!
# What the lexer passes over

The lexer takes a text apart without a rest.  Each of its steps begins where
the one before it ended, and passes over a token, a comment or one blank.  So
the ranges of tokens and comments, merged by where they begin, follow each
other, and what lies outside of all of them is blank.

The place of a token is told by the text in front of it: by the line feeds
there, and by the characters behind the last of these.
-/

namespace Reparse.Toy

open Text

def lineAt (text : List Char) (offset : Nat) : Nat :=
  1 + (text.take offset).count '\n'

def columnAt (text : List Char) (offset : Nat) : Nat :=
  1 + ((text.take offset).rtakeWhile (· != '\n')).length

/-- The ranges of tokens and comments, merged by where they begin. -/
def Lexed.ranges (lexed : Lexed) : List Span :=
  (lexed.tokens.map Token.span).merge (lexed.comments.filterMap (·.span))
    fun a b => decide (a.start ≤ b.start)

/-- From the offset to the end of the text there are these ranges and blanks,
one after the other. -/
inductive Tiles (text : List Char) : Nat → List Span → Prop where
  | nil : Tiles text text.length []
  | blank {offset : Nat} {c : Char} {spans : List Span}
      (hc : text[offset]? = some c) (hblank : isSkipped c = true)
      (hmore : Tiles text (offset + 1) spans) :
      Tiles text offset spans
  | range {span : Span} {spans : List Span} (hin : span.IsIn text)
      (hmore : Tiles text span.stop spans) :
      Tiles text span.start (span :: spans)

/-- Nothing of the text is dropped: tokens and comments are ranges of the text
in order and apart, all other characters are blanks, and each token is reported
where its first character stands. -/
structure Lexed.Exhausts (lexed : Lexed) (text : List Char) : Prop where
  placed : ∀ comment ∈ lexed.comments, ∃ span, comment.span = some span
  inText : ∀ span ∈ lexed.ranges, span.IsIn text
  ordered : lexed.ranges.Pairwise fun a b => a.stop ≤ b.start
  blank : ∀ offset c, text[offset]? = some c →
    (∀ span ∈ lexed.ranges, ¬ span.Has offset) →
    c = ' ' ∨ c = '\t' ∨ c = '\r'
  located : ∀ t ∈ lexed.tokens,
    t.start.line = lineAt text t.start.offset ∧
      t.start.column = columnAt text t.start.offset

/-! ## Places -/

section Places

variable {text s : List Char} {c : Char} {p : Place}

theorem column_walk (s : List Char) :
    (Place.start.walk s).column = 1 + (s.rtakeWhile (· != '\n')).length := by
  induction s using List.reverseRecOn with
  | nil => rfl
  | append_singleton s c ih =>
      rw [Place.walk_append, Place.walk_cons, Place.walk_nil,
        List.rtakeWhile_concat]
      by_cases hc : c = '\n'
      · rw [hc, Place.step_lineFeed, if_neg (by decide)]
        rfl
      · rw [Place.step_of_ne hc, if_pos (by simpa using hc),
          List.length_append, ← Nat.add_assoc, ← ih]
        rfl

theorem Stands.column_eq (hstands : Stands text p s) :
    p.column = columnAt text p.offset := by
  obtain ⟨before, rfl, rfl⟩ := hstands
  have hoffset : (Place.start.walk before).offset = before.length :=
    (offset_walk _ _).trans (Nat.zero_add _)
  rw [columnAt, hoffset, List.take_left, column_walk]

theorem Stands.getElem?_offset (hstands : Stands text p (c :: s)) :
    text[p.offset]? = some c := by
  obtain ⟨before, rfl, rfl⟩ := hstands
  have hoffset : (Place.start.walk before).offset = before.length :=
    (offset_walk _ _).trans (Nat.zero_add _)
  rw [hoffset, List.getElem?_append_right (Nat.le_refl _), Nat.sub_self]
  rfl

end Places

/-! ## Ranges in order -/

section Tiles

variable {text : List Char} {offset : Nat} {spans : List Span}

theorem Tiles.bounds (htiles : Tiles text offset spans) :
    ∀ span ∈ spans, offset ≤ span.start ∧ span.IsIn text := by
  induction htiles with
  | nil => exact List.forall_mem_nil _
  | blank _ _ _ ih =>
      exact fun span hspan =>
        ⟨Nat.le_of_succ_le (ih span hspan).1, (ih span hspan).2⟩
  | range hin _ ih =>
      refine List.forall_mem_cons.mpr
        ⟨⟨Nat.le_refl _, hin⟩, fun span hspan => ?_⟩
      obtain ⟨hle, hin'⟩ := ih span hspan
      exact ⟨hin.start_lt.le.trans hle, hin'⟩

theorem Tiles.ordered (htiles : Tiles text offset spans) :
    spans.Pairwise fun a b => a.stop ≤ b.start := by
  induction htiles with
  | nil => exact .nil
  | blank _ _ _ ih => exact ih
  | range _ hmore ih =>
      exact List.pairwise_cons.mpr ⟨fun span hspan =>
        (hmore.bounds span hspan).1, ih⟩

theorem Tiles.isSkipped {i : Nat} {c : Char} (htiles : Tiles text offset spans)
    (hoffset : offset ≤ i) (hc : text[i]? = some c)
    (hout : ∀ span ∈ spans, ¬ span.Has i) :
    Toy.isSkipped c = true := by
  induction htiles with
  | nil =>
      rw [List.getElem?_eq_none hoffset] at hc
      cases hc
  | @blank offset d _ hd hblank _ ih =>
      rcases Nat.eq_or_lt_of_le hoffset with rfl | hlt
      · obtain rfl : d = c := Option.some.inj (hd.symm.trans hc)
        exact hblank
      · exact ih hlt hout
  | @range span _ _ _ ih =>
      have hpast : span.stop ≤ i := by
        by_contra hlt
        exact hout span List.mem_cons_self ⟨hoffset, Nat.lt_of_not_le hlt⟩
      exact ih hpast fun other hother =>
        hout other (List.mem_cons_of_mem span hother)

theorem isSkipped_iff {c : Char} :
    isSkipped c = true ↔ c = ' ' ∨ c = '\t' ∨ c = '\r' := by
  simp [isSkipped, or_assoc]

end Tiles

/-! ## The ranges of a text -/

section Ranges

variable {lexed : Lexed} {span : Span} {t : Token} {comment : Comment}

theorem mem_ranges_iff : span ∈ lexed.ranges ↔
    span ∈ lexed.tokens.map Token.span ∨
      span ∈ lexed.comments.filterMap (·.span) :=
  List.mem_merge

/-- A token in front of all that follows. -/
theorem ranges_token
    (hfirst : ∀ span ∈ lexed.ranges, t.start.offset ≤ span.start) :
    Lexed.ranges { lexed with tokens := t :: lexed.tokens } =
      t.span :: lexed.ranges := by
  have hcomments :
      ∀ other ∈ lexed.comments.filterMap (·.span),
        t.span.start ≤ other.start :=
    fun other hother => hfirst other (mem_ranges_iff.mpr (.inr hother))
  unfold Lexed.ranges
  cases hspans : lexed.comments.filterMap (·.span) with
  | nil => simp
  | cons other others =>
      rw [hspans] at hcomments
      rw [List.map_cons, List.cons_merge_cons_pos]
      simpa using hcomments other List.mem_cons_self

/-- A comment in front of all that follows. -/
theorem ranges_comment (hspan : comment.span = some span)
    (hfirst : ∀ other ∈ lexed.ranges, span.start < other.start) :
    Lexed.ranges { lexed with comments := comment :: lexed.comments } =
      span :: lexed.ranges := by
  have htokens :
      ∀ other ∈ lexed.tokens.map Token.span, span.start < other.start :=
    fun other hother => hfirst other (mem_ranges_iff.mpr (.inl hother))
  unfold Lexed.ranges
  rw [List.filterMap_cons_some hspan]
  cases hspans : lexed.tokens.map Token.span with
  | nil => simp
  | cons other others =>
      rw [hspans] at htokens
      rw [List.cons_merge_cons_neg]
      simpa using htokens other List.mem_cons_self

end Ranges

section Lexing

variable {text s : List Char} {encoding : Encoding} {p : Place} {lexed : Lexed}

/-- From any place that it reaches, the lexer tiles what is left of the
text. -/
theorem tiles_of_lexFrom (hstands : Stands text p s)
    (hlex : lexFrom encoding p s = .ok lexed) :
    Tiles text p.offset lexed.ranges := by
  fun_induction lexFrom encoding p s generalizing lexed with
  | case1 p =>
      cases hlex
      have hend : p.offset = text.length := by simpa using hstands.offset_add
      have hranges : Lexed.ranges ⟨[], [], p⟩ = [] := by simp [Lexed.ranges]
      rw [hend, hranges]
      exact .nil
  | case2 p c r hblank ih =>
      have hpasses : Passes encoding p (c :: r) (p.skip 1) r := .blank hblank
      exact .blank hstands.getElem?_offset hblank
        (ih (hstands.trans hpasses.moves) hlex)
  | case3 p r length lexed' hmore hblank =>
      rename_i ih
      cases hlex
      have hpasses :
          Passes encoding p ('#' :: r) _ (r.dropWhile (· != '\n')) := .comment
      have hnext := hstands.trans hpasses.moves
      have hin :
          (Span.mk p.offset (p.skip (1 + length)).offset p.line).IsIn text :=
        hstands.isIn hnext (Nat.lt_succ_of_le (length_dropWhile_le _ r))
      have hspan :
          (comment p r).span =
            some ⟨p.offset, (p.skip (1 + length)).offset, p.line⟩ := by
        simp only [comment, Place.skip, ← Nat.add_assoc]
        rfl
      have htiles := ih hnext hmore
      rw [ranges_comment hspan fun other hother =>
        hin.start_lt.trans_le (htiles.bounds other hother).1]
      exact .range hin htiles
  | case4 => cases hlex
  | case5 => cases hlex
  | case6 p c r hblank hmark kind next rest hrest hscan lexed' hmore ih =>
      cases hlex
      have hpasses : Passes encoding p (c :: r) next rest :=
        .token (by simpa using hblank) hmark hscan
      have hnext := hstands.trans hpasses.moves
      have hin : (Span.mk p.offset next.offset p.line).IsIn text :=
        hstands.isIn hnext (Nat.lt_succ_of_le hrest)
      have htiles := ih hnext hmore
      rw [ranges_token fun other hother =>
        hin.start_lt.le.trans (htiles.bounds other hother).1]
      exact .range hin htiles
  | case7 => cases hlex

end Lexing

/-- The lexer drops nothing of a text that it accepts. -/
theorem exhausts_of_lex {encoding : Encoding} {text : List Char}
    {lexed : Lexed} (hlex : lex encoding text = .ok lexed) :
    lexed.Exhausts text := by
  have htiles : Tiles text 0 lexed.ranges := tiles_of_lexFrom (.refl _ _) hlex
  constructor
  · intro comment hcomment
    obtain ⟨span, hspan, -⟩ := (laid_of_lex hlex).2 comment hcomment
    exact ⟨span, hspan⟩
  · exact fun span hspan => (htiles.bounds span hspan).2
  · exact htiles.ordered
  · exact fun offset c hc hout =>
      isSkipped_iff.mp (htiles.isSkipped (Nat.zero_le _) hc hout)
  · intro t ht
    obtain ⟨rest, hreaches⟩ := (reaches_of_lexFrom hlex).1 t ht
    exact ⟨Stands.line_eq hreaches.moves, Stands.column_eq hreaches.moves⟩

/-- A literal over two lines, an exponent without digits, a negation symbol and
a comment. -/
theorem exhausts_spreadLiteral :
    ∃ lexed, lex .utf8 "\t\"a\n\\u\x7b41\x7d\" 1e:-@# b \n2.5".toList =
      .ok lexed ∧
      lexed.tokens.length = 6 ∧ lexed.comments.length = 1 ∧
      lexed.Exhausts "\t\"a\n\\u\x7b41\x7d\" 1e:-@# b \n2.5".toList := by
  have hread :
      (lex .utf8 "\t\"a\n\\u\x7b41\x7d\" 1e:-@# b \n2.5".toList).toOption.map
      (fun lexed => (lexed.tokens.length, lexed.comments.length)) =
        some (6, 1) := by
    decide +kernel
  cases hlex : lex .utf8 "\t\"a\n\\u\x7b41\x7d\" 1e:-@# b \n2.5".toList with
  | error fault =>
      rw [hlex] at hread
      cases hread
  | ok lexed =>
      rw [hlex] at hread
      obtain ⟨htokens, hcomments⟩ := Prod.mk.inj (Option.some.inj hread)
      exact ⟨lexed, rfl, htokens, hcomments, exhausts_of_lex hlex⟩

end Reparse.Toy
