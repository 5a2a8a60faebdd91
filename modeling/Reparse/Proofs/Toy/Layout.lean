import Reparse.Proofs.Toy.Oversteps

/-!
# Where tokens and comments lie

Tokens and comments take up stretches of the text, one after the other.  A
comment reaches to the end of its line, where a line feed stands, which is a
separator, or the text ends.  So only a separator follows on a comment: from
the end of a token up to the end of the next one that is no separator there is
none.
-/

namespace Reparse

namespace Span

def Has (span : Span) (offset : Nat) : Prop :=
  span.start ≤ offset ∧ offset < span.stop

/-- A range of characters of the text, on the line on which the first of them
stands. -/
structure IsIn (span : Span) (text : List Char) : Prop where
  start_lt : span.start < span.stop
  stop_le : span.stop ≤ text.length
  line_eq : span.line = 1 + (text.take span.start).count '\n'

def Apart (a b : Span) : Prop :=
  ∀ offset, a.Has offset → ¬ b.Has offset

end Span

namespace Toy

open Text

/-- No comment has a character between the two offsets. -/
def Clear (comments : List Comment) (start stop : Nat) : Prop :=
  ∀ comment ∈ comments, ∀ span ∈ comment.span, ∀ offset, start ≤ offset →
    offset < stop →
    ¬ span.Has offset

/-- The tokens lie in the text one behind the other from the offset on, and
comments only in front of separators. -/
inductive Laid (text : List Char) (comments : List Comment) :
    Nat → List Token → Prop where
  | nil {offset : Nat} : Laid text comments offset []
  | cons {offset : Nat} {t : Token} {ts : List Token}
      (hstart : offset ≤ t.start.offset) (hspan : t.span.IsIn text)
      (hclear : t.kind ≠ .separator → Clear comments offset t.stop)
      (hmore : Laid text comments t.stop ts) :
      Laid text comments offset (t :: ts)

/-! ## Places in the text -/

section Places

variable {text s t : List Char} {p q : Place}

theorem offset_walk (p : Place) (s : List Char) :
    (p.walk s).offset = p.offset + s.length := by
  induction s generalizing p with
  | nil => rfl
  | cons c s ih =>
      have hstep : (p.step c).offset = p.offset + 1 := by
        unfold Place.step
        split <;> rfl
      rw [Place.walk_cons, ih, hstep, List.length_cons]
      omega

theorem line_walk (p : Place) (s : List Char) :
    (p.walk s).line = p.line + s.count '\n' := by
  induction s generalizing p with
  | nil => rfl
  | cons c s ih =>
      rw [Place.walk_cons, ih]
      by_cases hc : c = '\n'
      · have hline : p.newLine.line = p.line + 1 := rfl
        rw [hc, Place.step_lineFeed, List.count_cons_self, hline]
        omega
      · rw [Place.step_of_ne hc, List.count_cons_of_ne hc, Place.skip]

theorem Stands.offset_add (hstands : Stands text p s) :
    p.offset + s.length = text.length := by
  obtain ⟨before, rfl, rfl⟩ := hstands
  rw [offset_walk, List.length_append]
  exact congrArg (· + s.length) (Nat.zero_add _)

theorem Stands.line_eq (hstands : Stands text p s) :
    p.line = 1 + (text.take p.offset).count '\n' := by
  obtain ⟨before, rfl, rfl⟩ := hstands
  have hoffset : (Place.start.walk before).offset = before.length :=
    (offset_walk _ _).trans (Nat.zero_add _)
  rw [hoffset, List.take_left, line_walk, Place.start]

theorem Stands.isIn (hstands : Stands text p s) (hnext : Stands text q t)
    (hshorter : t.length < s.length) :
    (Span.mk p.offset q.offset p.line).IsIn text := by
  have hfirst := hstands.offset_add
  have hsecond := hnext.offset_add
  refine ⟨?_, ?_, hstands.line_eq⟩
  · simp only
    omega
  · simp only
    omega

end Places

/-! ## Stretches without comments -/

section Clear

variable {comments : List Comment} {comment : Comment}
variable {start middle stop : Nat}

theorem Clear.trans (hfirst : Clear comments start middle)
    (hsecond : Clear comments middle stop) :
    Clear comments start stop := by
  intro comment hcomment span hspan offset hstart hstop
  by_cases hoffset : offset < middle
  · exact hfirst comment hcomment span hspan offset hstart hoffset
  · exact hsecond comment hcomment span hspan offset
      (Nat.le_of_not_lt hoffset) hstop

theorem Clear.mono {start' stop' : Nat} (hclear : Clear comments start stop)
    (hstart : start ≤ start') (hstop : stop' ≤ stop) :
    Clear comments start' stop' :=
  fun comment hcomment span hspan offset hle hlt =>
    hclear comment hcomment span hspan offset (hstart.trans hle)
      (hlt.trans_le hstop)

theorem Clear.apart {span : Span}
    (hclear : Clear comments span.start span.stop) :
    ∀ comment ∈ comments, ∀ place ∈ comment.span, place.Apart span :=
  fun comment hcomment place hplace offset hhas hspan =>
    hclear comment hcomment place hplace offset hspan.1 hspan.2 hhas

end Clear

/-! ## Laid tokens -/

section Laid

variable {text s : List Char} {comments : List Comment} {offset : Nat}
variable {ts : List Token}

/-- One comment more in front of all tokens. -/
theorem Laid.cons_comment {comment : Comment}
    (hlaid : Laid text comments offset ts)
    (hbefore : ∀ span ∈ comment.span, span.stop ≤ offset) :
    Laid text (comment :: comments) offset ts := by
  induction hlaid with
  | nil => exact .nil
  | @cons offset t ts hstart hspan hclear _ ih =>
      have hstop : offset ≤ t.stop := hstart.trans hspan.start_lt.le
      refine .cons hstart hspan (fun hkind => ?_) (ih fun span hp =>
        (hbefore span hp).trans hstop)
      refine List.forall_mem_cons.mpr ⟨fun span hp i hle _ hhas =>
        ?_, hclear hkind⟩
      exact absurd hhas.2 (Nat.not_lt.mpr ((hbefore span hp).trans hle))

/-- One comment more between the offset and a separator, which is the first
token. -/
theorem Laid.comment_separator {comment : Comment} {later : Nat}
    (hlaid : Laid text comments later ts) (hoffset : offset ≤ later)
    (hcomment : ∀ span ∈ comment.span, span.stop ≤ later)
    (hseparator : ∀ t ∈ ts.head?, t.kind = .separator) :
    Laid text (comment :: comments) offset ts := by
  cases hlaid with
  | nil => exact .nil
  | @cons _ t ts hstart hspan _ hmore =>
      have hstop : later ≤ t.stop := hstart.trans hspan.start_lt.le
      refine .cons (hoffset.trans hstart) hspan (fun hkind =>
        absurd (hseparator t rfl) hkind) ?_
      exact hmore.cons_comment fun span hp => (hcomment span hp).trans hstop

theorem Laid.skipSeparators (hlaid : Laid text comments offset ts) :
    ∃ later, offset ≤ later ∧
      Laid text comments later (Toy.skipSeparators ts).val := by
  induction hlaid with
  | @nil offset => exact ⟨offset, Nat.le_refl _, .nil⟩
  | @cons offset t ts hstart hspan hclear hmore ih =>
      by_cases hkind : t.kind = .separator
      · obtain ⟨later, hle, hlaid⟩ := ih
        have hskip :
            (Toy.skipSeparators (t :: ts)).val = (Toy.skipSeparators ts).val :=
          List.dropWhile_cons_of_pos (by simp [isSeparator, hkind])
        refine ⟨later, (hstart.trans hspan.start_lt.le).trans hle, ?_⟩
        rwa [hskip]
      · have hskip : (Toy.skipSeparators (t :: ts)).val = t :: ts :=
          List.dropWhile_cons_of_neg (by simp [isSeparator, hkind])
        refine ⟨offset, Nat.le_refl _, ?_⟩
        rw [hskip]
        exact .cons hstart hspan hclear hmore

end Laid

/-! ## The layout of a text -/

section Lexing

variable {text s : List Char} {encoding : Encoding} {p : Place} {lexed : Lexed}

/-- The comments lie in the text from the offset on. -/
def Follow (text : List Char) (offset : Nat) (comments : List Comment) :
    Prop :=
  ∀ comment ∈ comments, ∃ span, comment.span = some span ∧
    offset ≤ span.start ∧ span.IsIn text

theorem Follow.mono {comments : List Comment} {offset later : Nat}
    (hle : offset ≤ later) (hfollow : Follow text later comments) :
    Follow text offset comments := by
  intro comment hcomment
  obtain ⟨span, hspan, hstart, hin⟩ := hfollow comment hcomment
  exact ⟨span, hspan, hle.trans hstart, hin⟩

theorem Follow.clear {comments : List Comment} {offset start : Nat}
    (hfollow : Follow text offset comments) : Clear comments start offset := by
  intro comment hcomment span hspan i _ hlt hhas
  obtain ⟨place, hplace, hstart, -⟩ := hfollow comment hcomment
  obtain rfl : place = span := Option.some.inj (hplace.symm.trans hspan)
  exact absurd (hstart.trans hhas.1) (Nat.not_le.mpr hlt)

/-- What is left of a text behind a comment begins with a separator. -/
theorem head?_of_lexFrom_dropWhile
    (hlex : lexFrom encoding p (s.dropWhile (· != '\n')) = .ok lexed) :
    ∀ t ∈ lexed.tokens.head?, t.kind = .separator := by
  cases hrest : s.dropWhile (· != '\n') with
  | nil =>
      rw [hrest, lexFrom_nil] at hlex
      cases hlex
      exact fun t ht => nomatch ht
  | cons c rest =>
      have hfeed : c = '\n' := by
        have hhead := List.head?_dropWhile_not (· != '\n') s
        rw [hrest] at hhead
        simpa using hhead
      rw [hrest, hfeed, lexFrom_lineFeed] at hlex
      obtain ⟨more, -, rfl⟩ := exists_of_map_eq_ok hlex
      rintro t ht
      cases ht
      rfl

theorem laid_of_lexFrom {offset : Nat} (hstands : Stands text p s)
    (hoffset : offset ≤ p.offset) (hlex : lexFrom encoding p s = .ok lexed) :
    Laid text lexed.comments offset lexed.tokens ∧
      Follow text p.offset lexed.comments := by
  fun_induction lexFrom encoding p s generalizing lexed offset with
  | case1 =>
      cases hlex
      exact ⟨.nil, List.forall_mem_nil _⟩
  | case2 p c r hblank ih =>
      have hpasses : Passes encoding p (c :: r) (p.skip 1) r := .blank hblank
      obtain ⟨hlaid, hfollow⟩ :=
        ih (hstands.trans hpasses.moves) (hoffset.trans (Nat.le_succ _)) hlex
      exact ⟨hlaid, hfollow.mono (Nat.le_succ _)⟩
  | case3 p r length lexed' hmore hblank =>
      rename_i ih
      cases hlex
      have hpasses :
          Passes encoding p ('#' :: r) _ (r.dropWhile (· != '\n')) := .comment
      have hnext := hstands.trans hpasses.moves
      have hle : p.offset ≤ (p.skip (1 + length)).offset :=
        Nat.le_add_right _ _
      obtain ⟨hlaid, hfollow⟩ := ih hnext (Nat.le_refl _) hmore
      have hspan :
          (comment p r).span =
            some ⟨p.offset, (p.skip (1 + length)).offset, p.line⟩ := by
        simp only [comment, Place.skip, ← Nat.add_assoc]
        rfl
      have hin :
          (Span.mk p.offset (p.skip (1 + length)).offset p.line).IsIn text :=
        hstands.isIn hnext (Nat.lt_succ_of_le (length_dropWhile_le _ r))
      refine ⟨hlaid.comment_separator (hoffset.trans hle) ?_
        (head?_of_lexFrom_dropWhile hmore), ?_⟩
      · intro span hp
        obtain rfl := Option.some.inj (hspan.symm.trans hp)
        exact Nat.le_refl _
      · exact List.forall_mem_cons.mpr
          ⟨⟨_, hspan, Nat.le_refl _, hin⟩, hfollow.mono hle⟩
  | case4 => cases hlex
  | case5 => cases hlex
  | case6 p c r hblank hmark kind next rest hrest hscan lexed' hmore ih =>
      cases hlex
      have hpasses : Passes encoding p (c :: r) next rest :=
        .token (by simpa using hblank) hmark hscan
      have hnext := hstands.trans hpasses.moves
      obtain ⟨hlaid, hfollow⟩ := ih hnext (Nat.le_refl _) hmore
      have hin : (Span.mk p.offset next.offset p.line).IsIn text :=
        hstands.isIn hnext (Nat.lt_succ_of_le hrest)
      exact ⟨.cons hoffset hin (fun _ => hfollow.clear) hlaid,
        hfollow.mono hin.start_lt.le⟩
  | case7 => cases hlex

/-- The tokens of a text are laid out in it between its comments. -/
theorem laid_of_lex (hlex : lex encoding text = .ok lexed) :
    Laid text lexed.comments 0 lexed.tokens ∧ Follow text 0 lexed.comments :=
  laid_of_lexFrom (.refl _ _) (Nat.le_refl _) hlex

end Lexing

end Toy
end Reparse
