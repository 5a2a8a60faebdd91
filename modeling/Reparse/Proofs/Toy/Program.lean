import Reparse.Proofs.Toy.Printed
import Reparse.Proofs.Toy.Spelling
import Reparse.Proofs.Toy.Tokens

/-!
# Reading back the lines of a program

The lines of statements read as their words with a separator between two lines.
The lines of comments behind them give the comments back and leave separators,
which end the program like the end of the tokens does.  The program is read if
its nesting is within the limit, and rejected for the limit otherwise.
-/

namespace Reparse.Toy

open Text

/-! ## Lines -/

def commentLine (comment : Comment) : List Char :=
  '#' :: comment.text.toList

/-- The text of a comment as it is read back. -/
def Comment.trimmed (comment : Comment) : String :=
  String.ofList (trimEnd comment.text.toList)

theorem Comment.Sound.trimmed_eq {comment : Comment}
    (hsound : Comment.Sound comment) :
    Comment.trimmed comment = comment.text := by
  rw [Comment.trimmed, hsound.2, String.ofList_toList]

/-- The lines in front of which a line feed stands. -/
def moreLines (lines : List (List Char)) : List Char :=
  lines.flatMap ('\n' :: ·)

theorem joinWith_cons (line : List Char) (lines : List (List Char)) :
    joinWith ['\n'] (line :: lines) = line ++ moreLines lines := by
  unfold joinWith
  induction lines generalizing line with
  | nil => simp [moreLines]
  | cons next lines ih =>
      rw [List.intercalate_cons_cons, ih]
      simp [moreLines]

theorem joinWith_append (line : List Char) (lines others : List (List Char)) :
    joinWith ['\n'] (line :: lines ++ others) =
      joinWith ['\n'] (line :: lines) ++ moreLines others := by
  rw [List.cons_append, joinWith_cons, joinWith_cons, List.append_assoc]
  simp [moreLines]

theorem delimited_moreLines (lines : List (List Char)) :
    Delimited (moreLines lines) := by
  cases lines with
  | nil => exact delimited_nil
  | cons line lines => exact delimited_cons rfl

section Lines

variable {encoding : Encoding} {s : List Char} {kinds : List TokenKind}
variable {comments : List Comment}

theorem Lexes.feed (hs : Lexes encoding s kinds) :
    Lexes encoding ('\n' :: s) (.separator :: kinds) := by
  intro place rest hrest
  obtain ⟨toks, next, hkinds, hlex⟩ := hs place.newLine rest hrest
  refine ⟨⟨.separator, place, place.newLine.offset⟩ :: toks, next,
    by simp [hkinds], ?_⟩
  rw [List.cons_append, lexFrom_lineFeed, hlex, Lexed.map_prepend_append]
  rfl

/-- Reading the lines of comments gives the comments back, without blanks at
their ends, and leaves separators. -/
structure Lexed.Trails (comments : List Comment) (lexed : Lexed) : Prop where
  separators : ∀ t ∈ lexed.tokens, t.kind = .separator
  texts : lexed.comments.map (·.text) = comments.map Comment.trimmed

theorem comment_text {comment : Comment} (hfeed : '\n' ∉ comment.text.toList)
    (place : Place) (lines : List (List Char)) :
    (Toy.comment place (comment.text.toList ++ moreLines lines)).text =
      Comment.trimmed comment ∧
      (comment.text.toList ++ moreLines lines).dropWhile (· != '\n') =
        moreLines lines := by
  have hline : ∀ c ∈ comment.text.toList, (c != '\n') = true := by
    intro c hc
    have hne : c ≠ '\n' := fun heq => hfeed (heq ▸ hc)
    simpa using hne
  have hend : ∀ c ∈ (moreLines lines).head?, (c != '\n') = false := by
    cases lines <;> simp [moreLines]
  constructor
  · unfold Toy.comment
    rw [takeWhile_run hline hend]
    rfl
  · exact dropWhile_run hline hend

theorem Lexed.Trails.commentLine {comment : Comment} (place : Place)
    (hfeed : '\n' ∉ comment.text.toList)
    (hmore : ∀ place, ∃ lexed,
      lexFrom encoding place (moreLines (comments.map commentLine)) =
        .ok lexed ∧ lexed.Trails comments) :
    ∃ lexed, lexFrom encoding place
        (commentLine comment ++ moreLines (comments.map Toy.commentLine)) =
          .ok lexed ∧
      lexed.Trails (comment :: comments) := by
  have hline := comment_text hfeed place (comments.map Toy.commentLine)
  unfold Toy.commentLine at hline ⊢
  rw [List.cons_append, lexFrom_comment, hline.2]
  obtain ⟨lexed, hlex, hseparators, htexts⟩ := hmore _
  unfold Toy.commentLine at hlex
  rw [hlex]
  refine ⟨_, rfl, hseparators, ?_⟩
  simp [hline.1, htexts]

theorem exists_trails (encoding : Encoding)
    (hcomments : ∀ comment ∈ comments, '\n' ∉ comment.text.toList) :
    ∀ place, ∃ lexed, lexFrom encoding place
      (moreLines (comments.map commentLine)) = .ok lexed ∧
      lexed.Trails comments := by
  induction comments with
  | nil =>
      intro place
      exact ⟨_, lexFrom_nil, by simp, rfl⟩
  | cons comment comments ih =>
      intro place
      have hfeed := hcomments comment List.mem_cons_self
      have hmore :=
        ih fun c hc => hcomments c (List.mem_cons_of_mem comment hc)
      obtain ⟨lexed, hlex, hseparators, htexts⟩ :=
        Lexed.Trails.commentLine place.newLine hfeed hmore
      refine ⟨lexed.prepend [⟨.separator, place, place.newLine.offset⟩], ?_,
        ?_, htexts⟩
      · rw [List.map_cons, moreLines, List.flatMap_cons, List.cons_append,
          lexFrom_lineFeed]
        exact congrArg (Except.map _) hlex
      · intro t ht
        rcases List.mem_cons.mp ht with rfl | ht
        · rfl
        · exact hseparators t ht

/-- The tokens of the lines of a program. -/
theorem exists_lex_lines {lists : List (List Char)}
    {kindss : List (List TokenKind)}
    (hlists : List.Forall₂ (Lexes encoding) lists kindss)
    (hcomments : ∀ comment ∈ comments, '\n' ∉ comment.text.toList) :
    ∃ (toks : List Token) (lexed : Lexed),
      lex encoding (joinWith ['\n'] (lists ++ comments.map commentLine)) =
        .ok (lexed.prepend toks) ∧
      toks.map (·.kind) = [TokenKind.separator].intercalate kindss ∧
        lexed.Trails comments := by
  have hwords :
      Lexes encoding (['\n'].intercalate lists)
        ([.separator].intercalate kindss) :=
    .intercalate (fun hs => hs.feed) (fun s => delimited_cons rfl) hlists
  unfold lex
  cases hlists with
  | nil =>
      refine ⟨[], ?_⟩
      cases comments with
      | nil => exact ⟨⟨[], [], .start⟩, lexFrom_nil, rfl, by simp, rfl⟩
      | cons comment comments =>
          have hfeed := hcomments comment List.mem_cons_self
          have hmore := exists_trails encoding
            fun c hc => hcomments c (List.mem_cons_of_mem comment hc)
          obtain ⟨lexed, hlex, htrails⟩ :=
            Lexed.Trails.commentLine .start hfeed hmore
          refine ⟨lexed, ?_, rfl, htrails⟩
          rw [List.nil_append, List.map_cons, joinWith_cons]
          exact hlex
  | @cons line kinds lines kindss hline hlines =>
      obtain ⟨toks, next, hkinds, hlex⟩ := hwords .start _
        (delimited_moreLines (comments.map commentLine))
      obtain ⟨lexed, hmore, htrails⟩ := exists_trails encoding hcomments next
      refine ⟨toks, lexed, ?_, hkinds, htrails⟩
      rw [joinWith_append]
      unfold joinWith
      rw [hlex, hmore]
      rfl

end Lines

/-! ## Statements -/

section Statements

variable {ctx : Context} {toks trailing : List Token}

theorem skipSeparators_eq_nil {ts : List Token}
    (hts : ∀ t ∈ ts, t.kind = .separator) :
    (skipSeparators ts).val = [] := by
  unfold skipSeparators Suffix.dropWhile
  rw [List.dropWhile_eq_nil_iff]
  intro t ht
  simp [isSeparator, hts t ht]

theorem endsAt_of_separators
    (htrailing : ∀ t ∈ trailing, t.kind = .separator) :
    EndsAt 1 trailing := by
  cases trailing with
  | nil => simp [EndsAt, peek]
  | cons t trailing =>
      exact .of_kind (htrailing t List.mem_cons_self) Nat.zero_lt_one

/-- The last statement, behind which only separators are left. -/
theorem DerivesProgram.of_last {locals locals' : List String} {ts : List Token}
    {node : Node} {cost : Nat}
    (htrailing : ∀ t ∈ trailing, t.kind = .separator)
    (hstatement :
      Derives ctx .statement locals ts node locals' trailing cost) :
    DerivesProgram ctx locals ts [node] locals' cost := by
  cases trailing with
  | nil => exact .last hstatement
  | cons t trailing =>
      have hrest : (skipSeparators trailing).val = [] :=
        skipSeparators_eq_nil fun t ht =>
          htrailing t (List.mem_cons_of_mem _ ht)
      have hnodes :
          DerivesProgram ctx locals' (skipSeparators trailing).val []
            locals' 0 := by
        rw [hrest]
        exact .nil
      have hprogram :=
        DerivesProgram.more (htrailing t List.mem_cons_self) hstatement hnodes
      rwa [Nat.max_zero] at hprogram

/-- The words of statements, with separators between them and at the end, are a
program. -/
theorem exists_derivesProgram (ctx : Context) {es : List Expr}
    {locals : List String} (hnative : Expr.NativeList es)
    (htoks : toks.map (·.kind) =
      [TokenKind.separator].intercalate (Expr.wordsList locals es))
    (htrailing : ∀ t ∈ trailing, t.kind = .separator) :
    ∃ nodes : List Node, nodes.map Node.withoutSpans =
      (Expr.resolveList locals es).map Expr.toNode ∧
      DerivesProgram ctx locals (skipSeparators (toks ++ trailing)).val nodes
        (Expr.assignedList es ++ locals) (Expr.nestingList es) := by
  -- Every statement ends at a separator, but the last may also end with the
  -- tokens.
  induction es generalizing locals toks with
  | nil =>
      obtain rfl : toks = [] := by simpa [Expr.wordsList] using htoks
      refine ⟨[], rfl, ?_⟩
      rw [List.nil_append, skipSeparators_eq_nil htrailing]
      exact .nil
  | cons e es ih =>
      have hreadable := Expr.readable ctx hnative.1
      obtain ⟨k, ks, hwords, hopens⟩ :=
        Expr.exists_words_eq_cons locals hnative.1
      cases es with
      | nil =>
          rw [Expr.wordsList, Expr.wordsList,
            List.intercalate_singleton] at htoks
          have hpeek : peek (toks ++ trailing) = some k :=
            peek_of_map_kind (htoks.trans hwords)
          obtain ⟨node, hnode, hderives⟩ :=
            hreadable.statement locals toks trailing htoks
              (endsAt_of_separators htrailing)
          refine ⟨[node], by simp [Expr.resolveList, hnode], ?_⟩
          rw [skipSeparators_of_peek_ne (hpeek ▸ ne_of_opens hopens rfl),
            Expr.nestingList, Expr.nestingList, Nat.max_zero]
          exact .of_last htrailing hderives
      | cons e' es =>
          rw [Expr.wordsList, Expr.wordsList, List.intercalate_cons_cons,
            List.append_assoc] at htoks
          obtain ⟨first, more, rfl, hfirst, hmore⟩ :=
            List.map_eq_append_iff.mp htoks
          rw [List.singleton_append] at hmore
          obtain ⟨mark, others, rfl, hmark, hothers⟩ :=
            List.map_eq_cons_iff.mp hmore
          have hpeek : peek (first ++ mark :: (others ++ trailing)) = some k :=
            peek_of_map_kind (hfirst.trans hwords)
          obtain ⟨node, hnode, hderives⟩ :=
            hreadable.statement locals first _ hfirst
              (.of_kind hmark Nat.zero_lt_one)
          obtain ⟨nodes, hnodes, hprogram⟩ := ih hnative.2 hothers
          refine ⟨node :: nodes, by simp [Expr.resolveList, hnode, hnodes], ?_⟩
          rw [List.append_assoc, List.cons_append,
            skipSeparators_of_peek_ne (hpeek ▸ ne_of_opens hopens rfl),
            Expr.assignedList, List.append_assoc]
          exact .more hmark hderives hprogram

end Statements

/-! ## Programs -/

/-- Reading the lines of a program gives its statements and comments back
unless its nesting exceeds the limit, for which it is rejected. -/
theorem readProgram_lines {es : List Expr} {lists : List (List Char)}
    {comments : List Comment} (hscoped : Expr.ScopedList [] es)
    (hnative : Expr.NativeList es) (hspells : Expr.SpellsList es [] lists)
    (hcomments : ∀ comment ∈ comments, Comment.Sound comment)
    (encoding : Encoding) (identification : String) :
    ∃ (nodes : List Node) (found : List Comment),
      nodes.map Node.withoutSpans = es.map Expr.toNode ∧
      found.map (·.text) = comments.map (·.text) ∧
      (Expr.nestingList es ≤ maxNesting →
        readProgram encoding identification
          (joinWith ['\n'] (lists ++ comments.map commentLine)) =
            .ok (nodes, found)) ∧
      (maxNesting < Expr.nestingList es → ∃ fault,
        readProgram encoding identification
          (joinWith ['\n'] (lists ++ comments.map commentLine)) =
            .error fault ∧
        fault.cause = .nestingTooDeep) := by
  obtain ⟨toks, lexed, hlex, hkinds, hseparators, htexts⟩ :=
    exists_lex_lines (hspells.lexes encoding) fun comment hcomment =>
      (hcomments comment hcomment).1
  rw [List.map_congr_left fun comment hcomment =>
    (hcomments comment hcomment).trimmed_eq] at htexts
  obtain ⟨nodes, hnodes, hprogram⟩ :=
    exists_derivesProgram ⟨identification, lexed.stop⟩ hnative hkinds
      hseparators
  rw [Expr.resolveList_of_scoped hscoped] at hnodes
  obtain ⟨hread, hreject⟩ := hprogram.statements_eq
  refine ⟨nodes, lexed.comments, hnodes, htexts, fun hle => ?_, fun hlt => ?_⟩
  · unfold readProgram
    rw [hlex]
    simp only [Lexed.prepend, hread hle]
  · obtain ⟨fault, hfault, hcause⟩ := hreject hlt
    refine ⟨fault, ?_, hcause⟩
    unfold readProgram
    rw [hlex]
    simp only [Lexed.prepend, hfault]

end Reparse.Toy
