import Reparse.Proofs.Toy.Lexable
import Reparse.Proofs.Toy.Reread
import Reparse.Trial

/-!
# Printing settles after one reparse

Any tree may be printed here, with nodes that the parser never makes and names
that were never assigned.  Its text reads as another tree then, but a text that
is read at all was written from a writable expression, so the tree it reads as
is one that sources have.  Such a tree is printed, and its text reads as itself
unless it is nested too deeply.
-/

namespace Reparse.Toy

open Text

/-! ## The words of a text are sound -/

/-- The kind is sound and means the same on every line. -/
def TokenKind.Steady (kind : TokenKind) : Prop :=
  kind.Sound ∧ kind ≠ .lineWord

theorem Token.sound_of_steady {t : Token} (hsteady : t.kind.Steady) :
    t.Sound :=
  ⟨hsteady.1, fun hline => absurd hline hsteady.2⟩

def AllSteady (kinds : List TokenKind) : Prop :=
  ∀ kind ∈ kinds, kind.Steady

section Steady

variable {kind : TokenKind} {kinds kinds' : List TokenKind}
variable {kindss : List (List TokenKind)}

theorem allSteady_nil : AllSteady [] := by
  simp [AllSteady]

theorem AllSteady.cons (hkind : kind.Steady) (hkinds : AllSteady kinds) :
    AllSteady (kind :: kinds) :=
  List.forall_mem_cons.mpr ⟨hkind, hkinds⟩

theorem AllSteady.append (hkinds : AllSteady kinds)
    (hkinds' : AllSteady kinds') :
    AllSteady (kinds ++ kinds') :=
  List.forall_mem_append.mpr ⟨hkinds, hkinds'⟩

theorem AllSteady.enclose (hkinds : AllSteady kinds) :
    AllSteady (encloseWords kinds) := by
  have hopen : TokenKind.leftParen.Steady := ⟨trivial, by simp⟩
  have hclose : TokenKind.rightParen.Steady := ⟨trivial, by simp⟩
  exact .cons hopen (hkinds.append (.cons hclose allSteady_nil))

theorem AllSteady.wrap (parens : Bool) (hkinds : AllSteady kinds) :
    AllSteady (Expr.wrapWords parens kinds) := by
  cases parens with
  | false => exact hkinds
  | true => exact hkinds.enclose

theorem AllSteady.intercalate (hkind : kind.Steady)
    (hlists : ∀ kinds ∈ kindss, AllSteady kinds) :
    AllSteady ([kind].intercalate kindss) :=
  forall_mem_intercalate (by simpa using hkind) hlists

end Steady

namespace Expr

theorem steady_int {value : Int64} (hvalue : 0 ≤ value) :
    (TokenKind.int value).Steady :=
  ⟨hvalue, by simp⟩

theorem steady_ident {name : String} (hname : isName name = true) :
    (TokenKind.ident name).Steady :=
  ⟨hname, by simp⟩

theorem allSteady_int {value : Int64} (hvalue : value ≠ Int64.minValue)
    (locals : List String) :
    AllSteady ((int value).words locals) := by
  rw [words]
  split
  · next hsign =>
      have hnegative := Int64.lt_iff_toInt_lt.mp hsign
      have hlow := value.le_toInt
      have hne : value.toInt ≠ -2 ^ 63 :=
        fun heq => hvalue (Int64.toInt_inj.mp heq)
      have hopposite : -value = Int64.ofInt (-value.toInt) := by
        rw [← Int64.neg_ofInt, Int64.ofInt_toInt]
      have hnonneg : 0 ≤ -value := by
        rw [Int64.toInt_zero] at hnegative
        rw [Int64.le_iff_toInt_le, Int64.toInt_zero, hopposite,
          Int64.toInt_ofInt_of_le (by omega) (by omega)]
        omega
      exact .cons ⟨trivial, by simp⟩ (.cons (steady_int hnonneg) allSteady_nil)
  · next hsign =>
      have hnonneg : 0 ≤ value := by
        rw [Int64.le_iff_toInt_le]
        rw [Int64.lt_iff_toInt_lt] at hsign
        omega
      exact .cons (steady_int hnonneg) allSteady_nil

mutual

theorem allSteady_words : ∀ {e : Expr} (locals : List String), e.Writable →
    AllSteady (e.words locals)
  | int _, locals, hwritable => allSteady_int hwritable locals
  | float _, _, _ => by
      rw [words]
      split
      · exact .cons ⟨trivial, by simp⟩ (.cons ⟨trivial, by simp⟩ allSteady_nil)
      · exact .cons ⟨trivial, by simp⟩ allSteady_nil
  | str _, _, _ | bytes _, _, _ | nil, _, _ | bool _, _, _ => by
      rw [words]
      exact .cons ⟨trivial, by simp⟩ allSteady_nil
  | sym _, _, hwritable => by
      rw [words]
      exact .cons ⟨.inl hwritable, by simp⟩ allSteady_nil
  | var _, _, hwritable => by
      rw [words]
      exact .cons (steady_ident hwritable) allSteady_nil
  | assign name value, locals, hwritable => by
      rw [words]
      exact .cons (steady_ident hwritable.1)
        (.cons ⟨trivial, by simp⟩ (allSteady_words _ hwritable.2))
  | sequence items, locals, hwritable => by
      rw [words]
      have hmark : TokenKind.separator.Steady := ⟨trivial, by simp⟩
      exact (AllSteady.intercalate hmark
        (allSteady_wordsList locals hwritable)).enclose
  | negate operand, locals, hwritable => by
      rw [words]
      have hoperand := allSteady_words (e := operand) locals hwritable
      exact .cons ⟨trivial, by simp⟩ (hoperand.wrap _)
  | infixed left op right, locals, hwritable => by
      rw [words]
      have hop : op.token.Steady := by
        cases op <;> exact ⟨trivial, by simp [Operator.token]⟩
      exact ((allSteady_words locals hwritable.1).wrap _).append
        (.cons hop ((allSteady_words _ hwritable.2).wrap _))
  | call name args, locals, hwritable => by
      rw [words]
      refine .cons (steady_ident hwritable.1) ?_
      split
      · exact allSteady_nil
      · have hmark : TokenKind.comma.Steady := ⟨trivial, by simp⟩
        exact (AllSteady.intercalate hmark
          (allSteady_wordsList locals hwritable.2)).enclose
  | foreign _, _, _ => by
      rw [words]
      exact allSteady_nil

theorem allSteady_wordsList :
    ∀ {es : List Expr} (locals : List String), WritableList es →
    ∀ kinds ∈ wordsList locals es, AllSteady kinds
  | [], _, _ => by simp [wordsList]
  | e :: es, locals, hwritable => by
      intro kinds hkinds
      rw [wordsList] at hkinds
      rcases List.mem_cons.mp hkinds with rfl | hkinds
      · exact allSteady_words locals hwritable.1
      · exact allSteady_wordsList _ hwritable.2 kinds hkinds

end

/-! ## Reading back meets the same atoms without a spelling -/

mutual

theorem failure?_resolve : ∀ {e : Expr} (locals : List String), e.Writable →
    (e.resolve locals).failure? = e.failure?
  | var name, locals, hwritable => by
      have hname : (var name).failure? = none :=
        (failure?_atom rfl).trans (spellingError?_name hwritable)
      rw [resolve]
      split
      · rfl
      · rw [failure?_call hwritable, hname]
        rfl
  | assign _ value, locals, hwritable => by
      rw [resolve, failure?_assign hwritable.1, failure?_assign hwritable.1,
        failure?_resolve _ hwritable.2]
  | sequence items, locals, hwritable => by
      have hgroup : (group (resolveList locals items)).failure? =
          failureList? (resolveList locals items) :=
        congrArg (List.findSome? spellingError?) (atoms_group _)
      rw [resolve, hgroup, failure?_sequence,
        failureList?_resolveList _ hwritable]
  | negate operand, locals, hwritable => by
      rw [resolve, failure?_negate, failure?_negate,
        failure?_resolve (e := operand) locals hwritable]
  | infixed left op right, locals, hwritable => by
      rw [resolve, failure?_infixed, failure?_infixed,
        failure?_resolve _ hwritable.1,
        failure?_resolve _ hwritable.2]
  | call name args, locals, hwritable => by
      rw [resolve, failure?_call hwritable.1, failure?_call hwritable.1,
        failureList?_resolveList _ hwritable.2]
  | int _, _, _ | float _, _, _ | str _, _, _ | bytes _, _, _ | sym _, _, _
  | nil, _, _
  | bool _, _, _ | foreign _, _, _ => rfl

theorem failureList?_resolveList :
    ∀ {es : List Expr} (locals : List String), WritableList es →
    failureList? (resolveList locals es) = failureList? es
  | [], _, _ => rfl
  | _ :: _, _, hwritable => by
      rw [resolveList, failureList?_cons, failureList?_cons,
        failure?_resolve _ hwritable.1,
        failureList?_resolveList _ hwritable.2]

end

end Expr

theorem named_programOf (root : Option Node) :
    Expr.NamedList (programOf root) := by
  cases root with
  | none => trivial
  | some root =>
      have hnamed := Expr.named_ofNode root
      rcases programOf_cases root with
        ⟨first, second, more, hshape, hprogram⟩ | hprogram
      · rw [hshape] at hnamed
        rw [hprogram]
        exact hnamed
      · rw [hprogram]
        exact ⟨hnamed, trivial⟩

/-! ## The reparsed tree -/

section Reparsed

variable {keep : Bool} {source : Source} {identification : String}
variable {tree : Tree}
variable {es : List Expr} {lists : List (List Char)} {comments : List Comment}

theorem Lexed.Trails.sound {lexed : Lexed} (htrails : lexed.Trails comments)
    (hcomments : ∀ comment ∈ comments, '\n' ∉ comment.text.toList) :
    ∀ comment ∈ lexed.comments, Comment.Sound comment := by
  intro comment hcomment
  have htrimmed : comment.text ∈ comments.map Comment.trimmed :=
    htrails.texts ▸ List.mem_map_of_mem hcomment
  obtain ⟨given, hgiven, heq⟩ := List.mem_map.mp htrimmed
  unfold Comment.Sound
  rw [← heq, Comment.trimmed, String.toList_ofList]
  refine ⟨?_, trimEnd_trimEnd _⟩
  intro hfeed
  exact hcomments given hgiven (mem_of_mem_trimEnd hfeed)

theorem allSound_of_words {toks trailing : List Token}
    (hwritable : Expr.WritableList es)
    (hkinds : toks.map (·.kind) =
      [TokenKind.separator].intercalate (Expr.wordsList [] es))
    (hseparators : ∀ t ∈ trailing, t.kind = .separator) :
    AllSound (toks ++ trailing) := by
  have hmark : TokenKind.separator.Steady := ⟨trivial, by simp⟩
  have hwords :=
    AllSteady.intercalate hmark (Expr.allSteady_wordsList [] hwritable)
  intro t ht
  apply Token.sound_of_steady
  rcases List.mem_append.mp ht with ht | ht
  · exact hwords t.kind (hkinds ▸ List.mem_map_of_mem ht)
  · rw [hseparators t ht]
    exact hmark

/-- The tree that the lines of writable statements read as is sound, and made
up by what the statements read as. -/
theorem sound_of_parse_lines (hwritable : Expr.WritableList es)
    (hspelled : Expr.failureList? es = none)
    (hspells : Expr.SpellsList es [] lists)
    (hcomments : ∀ comment ∈ comments, '\n' ∉ comment.text.toList)
    (htext : source.text = joinWith ['\n'] (lists ++ comments.map commentLine))
    (hparse : parse keep source identification = .ok tree) :
    Tree.Sound tree ∧ tree.root.map Node.withoutSpans =
      rootOf (Expr.resolveList [] es) := by
  obtain ⟨lexed, nodes, hlex, hread, rfl⟩ := parse_eq_ok hparse
  obtain ⟨toks, trailing, hlex', hkinds, htrails⟩ :=
    exists_lex_lines (hspells.lexes source.encoding) hcomments
  rw [htext, hlex'] at hlex
  cases hlex
  constructor
  · have hsound := allSound_of_words hwritable hkinds htrails.separators
    obtain ⟨locals', cost, -, hprogram⟩ := derivesProgram_of_statements hread
    apply
      (hprogram.faithful (hsound.of_subset (skipSeparators_subset _))).sound
    cases keep with
    | true => exact htrails.sound hcomments
    | false => simp
  · -- The statements are read from their words, so they are the nodes that
    -- were found.
    have hnative := Expr.nativeList_of_writable hwritable hspelled
    obtain ⟨nodes', hnodes', hprogram⟩ := exists_derivesProgram
      ⟨identification, (trailing.prepend toks).stop⟩ hnative hkinds
        htrails.separators
    obtain ⟨hok, herror⟩ := hprogram.statements_eq
    have hsame : nodes = nodes' := by
      by_cases hlimit : Expr.nestingList es ≤ maxNesting
      · exact Except.ok.inj (hread.symm.trans (hok hlimit))
      · obtain ⟨fault, hfault, -⟩ := herror (Nat.lt_of_not_le hlimit)
        cases hread.symm.trans hfault
    rw [hsame]
    exact withoutSpans_collapse? hnodes'

end Reparsed

/-! ## Stability -/

/-- How printing a tree and printing what it reads as ends. -/
inductive Settling (keep : Bool) (tree : Tree) :
    Except Unstable String → Prop where
  | notPrinted {e : PrintError} (hprint : print tree = .error e) :
      Settling keep tree (.error (.firstPrint e))
  | notRead {first : String} {e : SyntaxError}
      (hprint : print tree = .ok first)
      (hread : parse keep (.ofText first.toList) "idempotence:first" =
        .error e) :
      Settling keep tree (.error (.firstParse e))
  | tooDeep {first second : String} {a : Tree} {e : SyntaxError}
      (hprint : print tree = .ok first)
      (hread : parse keep (.ofText first.toList) "idempotence:first" = .ok a)
      (hreprint : print a = .ok second)
      (hreread : parse keep (.ofText second.toList) "idempotence:second" =
        .error e) (hmessage : e.message = Cause.nestingTooDeep.message)
      (hdeep : maxNesting < printedNesting a) :
      Settling keep tree (.error (.secondParse e))
  | settled {first second : String} {a b : Tree}
      (hprint : print tree = .ok first)
      (hread : parse keep (.ofText first.toList) "idempotence:first" = .ok a)
      (hreprint : print a = .ok second)
      (hreread : parse keep (.ofText second.toList) "idempotence:second" =
        .ok b) (hsame : a.same b = true)
      (hcomments : commentTexts? b = commentTexts? a) :
      Settling keep tree (.ok second)

section Stability

variable {keep : Bool} {source : Source} {identification : String}
variable {tree a : Tree} {first : String}

theorem exists_lines_of_print (hprint : print tree = .ok first) :
    ∃ lists locals', Expr.writeList [] (programOf tree.root) =
      .ok (lists, locals') ∧
      first.toList =
        joinWith ['\n']
          (lists ++ (tree.comments.getD []).map commentLine) := by
  unfold print programLines at hprint
  cases hwrite : Expr.writeList [] (programOf tree.root) with
  | error e =>
      rw [hwrite] at hprint
      cases hprint
  | ok written =>
      rw [hwrite] at hprint
      cases hprint
      exact ⟨written.1, written.2, rfl, String.toList_ofList⟩

/-- The tree that any printed text reads as is sound and has a text. -/
theorem sound_of_print_parse
    (hcomments : ∀ comment ∈ tree.comments.getD [], '\n' ∉ comment.text.toList)
    (hprint : print tree = .ok first) (htext : source.text = first.toList)
    (hparse : parse keep source identification = .ok a) :
    Tree.Sound a ∧ ∃ second, print a = .ok second := by
  obtain ⟨lists, locals', hwrite, hlines⟩ := exists_lines_of_print hprint
  rw [hlines] at htext
  obtain ⟨lexed, -, hlex, -, -⟩ := parse_eq_ok hparse
  rw [htext] at hlex
  have hwritable := writableList_of_lex (named_programOf tree.root) hwrite hlex
  obtain ⟨hspelled, hspells⟩ :=
    (Expr.outcomeList_of_writable [] hwritable).spells hwrite
  obtain ⟨hsound, hroot⟩ :=
    sound_of_parse_lines hwritable hspelled hspells hcomments htext hparse
  refine ⟨hsound, ?_⟩
  have hatoms : a.atoms.findSome? spellingError? = none := by
    rw [atoms_of_rootOf hroot]
    exact (Expr.failureList?_resolveList [] hwritable).trans hspelled
  rcases hsound.print_cases with ⟨error, herror, -⟩ | ⟨-, lists, -, hreprint⟩
  · rw [hatoms] at herror
    cases herror
  · exact ⟨_, hreprint⟩

/-- Whatever the tree, provided that its comments are lines: printing it
settles after one reparse, unless the tree has no text, the text is no program,
or what it reads as is nested too deeply. -/
theorem settling_of_comments (keep : Bool) (tree : Tree)
    (hcomments : ∀ comment ∈ tree.comments.getD [],
      '\n' ∉ comment.text.toList) :
    Settling keep tree (stableText (parser keep) printer tree) := by
  have htext :
      ∀ text : String, (Source.ofText text.toList).text = text.toList :=
    fun text => Utf8.decodeLossy_encode text.toList
  unfold stableText settle printer parser
  dsimp only
  cases hprint : print tree with
  | error e => exact .notPrinted hprint
  | ok first =>
      cases hread : parse keep (.ofText first.toList) "idempotence:first" with
      | error e =>
          simp only [Except.mapError, bind, Except.bind, hread]
          exact .notRead hprint hread
      | ok a =>
          obtain ⟨hsound, second, hreprint⟩ :=
            sound_of_print_parse hcomments hprint (htext first) hread
          obtain ⟨hwithin, hbeyond⟩ :=
            hsound.reread hreprint (htext second) keep "idempotence:second"
          by_cases hlimit : printedNesting a ≤ maxNesting
          · obtain ⟨b, hreread, hroot, htexts⟩ := hwithin hlimit
            have hsame : commentTexts? b = commentTexts? a :=
              htexts.trans (commentTexts?_of_parse hread).symm
            have hequal := same_of_commentTexts hroot hsame.symm
            simp only [Except.mapError, bind, Except.bind, hread, hreprint,
              hreread, hequal, if_true]
            exact .settled hprint hread hreprint hreread hequal hsame
          · obtain ⟨e, hreread, hmessage⟩ := hbeyond (Nat.lt_of_not_le hlimit)
            simp only [Except.mapError, bind, Except.bind, hread, hreprint,
              hreread]
            exact .tooDeep hprint hread hreprint hreread hmessage
              (Nat.lt_of_not_le hlimit)

end Stability

/-- A sequence of one item, with a variable that nothing assigns and a comment
with blanks at its end. -/
def oddTree : Tree :=
  ⟨some (.bare "begin" [.node (.bare "send"
    [.node (.bare "lvar" [symbol "a"]), symbol negationSymbol])]),
    some [⟨" note  ", none⟩]⟩

theorem settling_oddTree :
    (∀ comment ∈ oddTree.comments.getD [], '\n' ∉ comment.text.toList) ∧
      print oddTree = .ok "(-a)\n# note  " ∧
      Settling true oddTree (.ok "-a\n# note") := by
  have hcomments :
      ∀ comment ∈ oddTree.comments.getD [], '\n' ∉ comment.text.toList := by
    decide
  have hsettles := settling_of_comments true oddTree hcomments
  have htext :
      (stableText (parser true) printer oddTree).toOption =
        some "-a\n# note" := by
    decide +kernel
  refine ⟨hcomments, by decide +kernel, ?_⟩
  cases hstable : stableText (parser true) printer oddTree with
  | error e =>
      rw [hstable] at htext
      cases htext
  | ok text =>
      rw [hstable] at htext hsettles
      cases htext
      exact hsettles

end Reparse.Toy
