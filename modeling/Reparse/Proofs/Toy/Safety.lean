import Reparse.Proofs.Toy.Offsets
import Reparse.Proofs.Toy.Runs

/-!
# The front end is safe

The lexer by offsets and the parser by positions together read what the parser
reads.  So no offset, no position, no column and no level is out of range, and
every loop comes to its end, on every text: also where the text breaks off in
an escape, a group or a call.
-/

namespace Reparse.Toy

open Text Checked

/-- Reads a program by offsets and by positions.  There is no answer when an
operation has no result, or when there are more rounds than granted. -/
def readInPlace (rounds : Nat) (encoding : Encoding) (identification : String)
    (text : List Char) : Option (Except Fault (List Node × List Comment)) :=
  match (Scanner.items text encoding rounds .start).answer? with
  | none => none
  | some (.error fault) => some (.error fault)
  | some (.ok (items, comments)) =>
    (Cursor.program items identification rounds .start).answer?.map
      fun result => result.map fun nodes => (nodes, comments)

/-- The items end in the only mark among them. -/
def EndsInMark (items : List Item) : Prop :=
  ∃ (tokens : List Token) (place : Place),
    items = tokens.map .token ++ [.stop place]

/-- How far a form goes on at least; a tail may be empty. -/
def Form.GoesOn : Form → Nat → Nat → Prop
  | tail _ _ => fun before after => before ≤ after
  | _ => fun before after => before < after

/-- The reader of a form goes on, or reports a fault, and its position is that
of an item. -/
def Cursor.Advances (items : List Item) (form : Form) (st : Cursor) :
    Outcome Cursor form.Result → Prop
  | .done _ last => form.GoesOn st.pos last.pos ∧ last.pos < items.length
  | .fault _ last => last.pos < items.length
  | .stuck | .spent => False

/-- What holds of a text that is read by offsets and by positions in so many
rounds. -/
structure ReadSafely (encoding : Encoding) (identification : String)
    (text : List Char) (rounds : Nat) : Prop where
  answers : readInPlace rounds encoding identification text =
    some (readProgram encoding identification text)
  marked : ∀ items comments last,
    Scanner.items text encoding rounds .start = .done (items, comments) last →
      EndsInMark items
  advances : ∀ items comments last,
    Scanner.items text encoding rounds .start = .done (items, comments) last →
      ∀ (form : Form) (st : Cursor), st.pos < items.length →
        Cursor.Advances items form st
          (Cursor.run items identification rounds form st)

section Lexer

variable {encoding : Encoding} {text : List Char} {lexed : Lexed}
variable {rounds : Nat}

/-- The lexer yields no more tokens than there are characters, and no integer
with a sign. -/
theorem tokens_of_lexFrom {place : Place} {s : List Char}
    (hlex : lexFrom encoding place s = .ok lexed) :
    lexed.tokens.length ≤ s.length ∧ ∀ t ∈ lexed.tokens, t.kind.Sound := by
  fun_induction lexFrom encoding place s generalizing lexed with
  | case1 =>
      cases hlex
      exact ⟨Nat.le_refl _, by simp⟩
  | case2 place c r hblank =>
      rename_i ih
      obtain ⟨hlength, hsound⟩ := ih hlex
      exact ⟨hlength.trans (Nat.le_succ _), hsound⟩
  | case3 place r length lexed' hmore hblank =>
      rename_i ih
      cases hlex
      obtain ⟨hlength, hsound⟩ := ih hmore
      have hle := length_dropWhile_le (· != '\n') r
      exact ⟨hlength.trans (hle.trans (Nat.le_succ _)), hsound⟩
  | case6 place c r hblank hmark kind next rest hrest hscan lexed' hmore =>
      rename_i ih
      cases hlex
      obtain ⟨hlength, hsound⟩ := ih hmore
      refine ⟨Nat.succ_le_succ (hlength.trans hrest), fun t ht => ?_⟩
      rcases List.mem_cons.mp ht with rfl | ht
      · exact sound_of_scanToken hscan
      · exact hsound t ht
  | case4 | case5 | case7 => cases hlex

/-- A token of the lexer is no integer whose negative is none. -/
theorem negatable_items (hlex : lex encoding text = .ok lexed) :
    Cursor.Negatable lexed.items := by
  intro t ht hkind
  have hmem : t ∈ lexed.tokens := by simpa [Lexed.items] using ht
  have hsound := (tokens_of_lexFrom hlex).2 t hmem
  rw [hkind] at hsound
  exact (ne_minValue_of_nonneg hsound).1 rfl

theorem answer?_items (encoding : Encoding)
    (hrounds : text.length + 1 < rounds) :
    (Scanner.items text encoding rounds .start).answer? =
      some ((lex encoding text).map fun lexed =>
        (lexed.items, lexed.comments)) := by
  have hagrees :
      Scanner.Agrees text (Scanner.items text encoding rounds .start)
        ((lex encoding text).map Scanner.whole) :=
    Scanner.agrees_items leaves_start hrounds
  rw [answer?_of_endsAs hagrees fun _ _ _ hgoes => hgoes.1]
  cases lex encoding text <;> rfl

/-- What the lexer by offsets yields are the items of the tokens. -/
theorem exists_lexed_of_items {items : List Item} {comments : List Comment}
    {last : Scanner} (hrounds : text.length + 1 < rounds)
    (hitems : Scanner.items text encoding rounds .start =
      .done (items, comments) last) :
    ∃ lexed, lex encoding text = .ok lexed ∧ items = lexed.items := by
  have hanswer := answer?_items encoding hrounds
  rw [hitems] at hanswer
  obtain ⟨lexed, hlex, hpair⟩ :=
    exists_of_map_eq_ok (Option.some.inj hanswer).symm
  exact ⟨lexed, hlex, (Prod.mk.inj hpair).1.symm⟩

end Lexer

section Parser

variable {items : List Item} {ctx : Context} {lexed : Lexed}
variable {identification : String}

/-- At every position of an item the tokens behind it are left. -/
theorem faces_items (lexed : Lexed) (identification : String) {pos : Nat}
    (hpos : pos < lexed.items.length) :
    Cursor.Faces lexed.items ⟨identification, lexed.stop⟩ pos
      (lexed.tokens.drop pos) := by
  have hle : pos ≤ (lexed.tokens.map Item.token).length := by
    simpa [Lexed.items, Nat.lt_succ_iff] using hpos
  rw [Cursor.Faces, Lexed.items, List.drop_append_of_le_length hle,
    List.map_drop]

theorem advances_of_follows {form : Form} {run : Step form.Result}
    {st : Cursor} {ts : List Token}
    (hrun : Cursor.Follows items ctx form run ts)
    (h : Cursor.Faces items ctx st.pos ts) :
    Cursor.Advances items form st (run st) := by
  have hlength := h.length_eq
  have hends := hrun st h
  cases hread : form.read ctx st.locals ts (maxNesting - st.depth) with
  | error fault =>
      rw [hread] at hends
      obtain ⟨last, hfault, hpos, -⟩ := hends
      rw [hfault]
      exact hpos
  | ok out =>
      rw [hread] at hends
      obtain ⟨value, last, hdone, -, hfaces, -, -⟩ := hends
      have hrest := hfaces.length_eq
      rw [hdone]
      refine ⟨?_, by omega⟩
      cases form with
      | tail tier left =>
          have hle : out.2.2.length ≤ ts.length := property_of_plain hread
          exact Nat.le_of_add_le_add_right (b := ts.length) (by omega)
      | _ =>
          have hlt := Form.length_lt_of_read (by simp) hread
          exact Nat.lt_of_add_lt_add_right (n := ts.length) (by omega)

end Parser

/-! ## Programs -/

section Programs

variable {encoding : Encoding} {identification : String} {text : List Char}
variable {rounds : Nat}

theorem answer?_program {lexed : Lexed} (identification : String)
    (hlex : lex encoding text = .ok lexed)
    (hrounds : 8 * text.length + 8 ≤ rounds) :
    (Cursor.program lexed.items identification rounds .start).answer? =
      some (statements ⟨identification, lexed.stop⟩ []
        (skipSeparators lexed.tokens).val) := by
  have hlength := (tokens_of_lexFrom hlex).1
  have hfaces :
      Cursor.Faces lexed.items ⟨identification, lexed.stop⟩ Cursor.start.pos
        lexed.tokens :=
    faces_items lexed identification (by simp [Lexed.items, Cursor.start])
  have hends :=
    Cursor.ends_program (n := rounds) (negatable_items hlex) (by omega) hfaces
  rw [answer?_of_endsAs hends fun _ _ _ hgoes => hgoes.1]
  exact congrArg some (congrFun Except.map_id _)

/-- Reading in place gives the answer of the parser. -/
theorem readInPlace_eq (encoding : Encoding) (identification : String)
    (hrounds : 8 * text.length + 8 ≤ rounds) :
    readInPlace rounds encoding identification text =
      some (readProgram encoding identification text) := by
  unfold readInPlace readProgram
  rw [answer?_items encoding (by omega)]
  cases hlex : lex encoding text with
  | error fault => rfl
  | ok lexed =>
      dsimp only [Except.map]
      rw [answer?_program identification hlex hrounds]
      cases statements ⟨identification, lexed.stop⟩ []
        (skipSeparators lexed.tokens).val <;> rfl

/-- Every text is read safely, in rounds that grow with its length. -/
theorem readSafely_of_le (encoding : Encoding) (identification : String)
    (hrounds : 8 * text.length + 9 ≤ rounds) :
    ReadSafely encoding identification text rounds where
  answers := readInPlace_eq encoding identification (by omega)
  marked items comments last hitems := by
    obtain ⟨lexed, -, rfl⟩ := exists_lexed_of_items (by omega) hitems
    exact ⟨lexed.tokens, lexed.stop, rfl⟩
  advances items comments last hitems form st hpos := by
    obtain ⟨lexed, hlex, rfl⟩ := exists_lexed_of_items (by omega) hitems
    -- The cursor need not be one that the parser comes to.
    have hlength := (tokens_of_lexFrom hlex).1
    have hfaces := faces_items lexed identification hpos
    have hrank := form.rank_le
    refine advances_of_follows
      (Cursor.follows_run (negatable_items hlex) rounds form _ ?_) hfaces
    rw [List.length_drop]
    omega

theorem readSafely_truncated :
    8 * 3 + 9 ≤ 33 ∧ ReadSafely .utf8 "toy" ['f', '(', '-'] 33 :=
  ⟨by decide, readSafely_of_le .utf8 "toy" (by decide)⟩

example : readInPlace 33 .utf8 "toy" ['f', '(', '-'] =
    some (.error ⟨1, 4, .unexpectedToken none⟩) := by
  rfl

-- Behind the mark there is no item.
example : Cursor.run [.stop .start] "toy" 9 .unary ⟨1, [], 0⟩ = .stuck := by
  rfl

-- The byte escape takes two characters where the text has one.
example : readInPlace 41 .utf8 "toy" ['"', '\\', 'x', '4'] =
    some (.error ⟨1, 6, .unterminatedString⟩) := by
  rfl

end Programs

end Reparse.Toy
