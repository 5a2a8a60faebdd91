import Reparse.Proofs.Toy.Bounds
import Reparse.Proofs.Toy.Cuts
import Reparse.Proofs.Toy.Fragmented

/-!
# Parentheses are needed

A printed text has no pair of parentheses too many: without any one of them it
is not read as the same tree, if it is read at all.  Only the pair around a
negative number that a minus stands in front of may go.

The tokens of a printed text weigh what its tree costs.  Without the pair they
weigh less, whatever they are read as, and no tree costs more than its tokens
weigh.
-/

namespace Reparse.Toy

open Text

/-! ## Pairs -/

/-- Two parentheses among the tokens of a text that match each other. -/
structure Pair (tokens : List Token) where
  before : List Token
  opening : Token
  inside : List Token
  closing : Token
  after : List Token
  tokens_eq : tokens = before ++ opening :: (inside ++ closing :: after)
  opens : opening.kind = .leftParen
  closes : closing.kind = .rightParen
  balanced : Balanced (inside.map Token.kind)

namespace Pair

variable {tokens : List Token}

/-- The text without the two characters of the pair. -/
def erase (pair : Pair tokens) (text : List Char) : List Char :=
  (text.eraseIdx pair.closing.start.offset).eraseIdx pair.opening.start.offset

/-- The pair encloses a negative number, and in front of it stands a minus that
has no operand on its left. -/
structure IsSignOperand (pair : Pair tokens) : Prop where
  minus : ∃ front minus, pair.before = front ++ [minus] ∧ minus.kind = .minus ∧
    ∀ t ∈ front.getLast?, t.kind.endsOperand = false
  number :
    ∃ number, IsNumber number ∧ pair.inside.map Token.kind = [.minus, number]

end Pair

section Pairs

variable {encoding : Encoding} {ps : List Fragment} {lexed : Lexed}

/-- The tokens behind which a lead stands that is the minus of a negation. -/
theorem exists_of_after_eq_negation {ts : List Token}
    (hlead : Lead.other.after (ts.map Token.kind) = .negation) :
    ∃ front minus, ts = front ++ [minus] ∧ minus.kind = .minus ∧
      ∀ t ∈ front.getLast?, t.kind.endsOperand = false := by
  rcases List.eq_nil_or_concat' ts with rfl | ⟨front, minus, rfl⟩
  · cases hlead
  rw [List.map_append, Lead.after_append] at hlead
  obtain ⟨hminus, hoperand⟩ := Lead.next_eq_negation_iff.mp hlead
  refine ⟨front, minus, rfl, hminus, fun t ht => ?_⟩
  by_contra hends
  obtain ⟨more, rfl⟩ := List.getLast?_eq_some_iff.mp ht
  apply hoperand
  rw [List.map_append, Lead.after_append]
  exact Lead.next_of_endsOperand (by simpa using hends) _

/-- The fragments around the parentheses of a pair. -/
structure Pair.Parts (pair : Pair lexed.tokens)
    (ps front middle back : List Fragment) : Prop where
  row : ps = front ++ .mark '(' :: (middle ++ .mark ')' :: back)
  before : pair.before.map Token.kind = kinds front
  inside : pair.inside.map Token.kind = kinds middle
  after : pair.after.map Token.kind = kinds back
  opening : pair.opening.start.offset = (texts front).length
  closing :
    pair.closing.start.offset = (texts (front ++ .mark '(' :: middle)).length

/-- A mark stands behind the text of the fragments in front of it. -/
theorem mark_offset {front back : List Fragment} {c : Char}
    {before after : List Token} {t : Token}
    (hsound : SoundRow (front ++ .mark c :: back))
    (hrow : Row (front ++ .mark c :: back) [])
    (hmark : (markToken? c).isSome = true)
    (hlex : lex encoding (texts (front ++ .mark c :: back)) = .ok lexed)
    (htokens : lexed.tokens = before ++ t :: after)
    (hbefore : before.map Token.kind = kinds front) :
    t.start.offset = (texts front).length := by
  have hfront : Row front (c :: texts back) := by
    have hfront := (row_append_iff.mp hrow).1
    rwa [List.append_nil] at hfront
  have hlex' :
      lexFrom encoding .start (texts front ++ c :: texts back) =
        .ok lexed := by
    rw [← texts_mark]
    exact hlex
  rw [start_offset (SoundRow.append_iff.mp hsound).1 hfront hmark hlex'
    htokens hbefore]
  exact Nat.zero_add _

/-- A pair of the tokens of a row is a pair of marks among its fragments. -/
theorem Pair.exists_parts (pair : Pair lexed.tokens) (hsound : SoundRow ps)
    (hrow : Row ps []) (hlex : lex encoding (texts ps) = .ok lexed) :
    ∃ front middle back,
      pair.Parts ps front middle back := by
  have hkinds := hrow.kinds_eq hsound hlex
  rw [pair.tokens_eq] at hkinds
  simp only [List.map_append, List.map_cons, pair.opens, pair.closes] at hkinds
  obtain ⟨front, others, rfl, hfront, hothers⟩ :=
    exists_split hsound hkinds.symm (.inl ⟨rfl, rfl⟩)
  have hinner := (List.forall_mem_cons.mp (SoundRow.append_iff.mp hsound).2).2
  obtain ⟨middle, back, rfl, hmiddle, hback⟩ :=
    exists_split hinner hothers (.inr ⟨rfl, rfl⟩)
  refine ⟨front, middle, back, rfl, hfront.symm, hmiddle.symm,
    hback.symm, ?_, ?_⟩
  · exact mark_offset hsound hrow rfl hlex pair.tokens_eq hfront.symm
  · have hsplit : front ++ .mark '(' :: (middle ++ .mark ')' :: back) =
        (front ++ .mark '(' :: middle) ++ .mark ')' :: back := by simp
    rw [hsplit] at hrow hlex hsound
    have htokens : lexed.tokens =
        (pair.before ++ pair.opening :: pair.inside) ++
          pair.closing :: pair.after := by
      rw [List.append_assoc, List.cons_append]
      exact pair.tokens_eq
    have hbefore :
        (pair.before ++ pair.opening :: pair.inside).map Token.kind =
        kinds (front ++ .mark '(' :: middle) := by
      rw [kinds_append, kinds_cons, hfront, hmiddle]
      simp only [List.map_append, List.map_cons, pair.opens]
      rfl
    exact mark_offset hsound hrow rfl hlex htokens hbefore

theorem eraseIdx_length {α : Type} (front back : List α) (a : α) :
    (front ++ a :: back).eraseIdx front.length = front ++ back := by
  rw [List.eraseIdx_append_of_length_le (Nat.le_refl _), Nat.sub_self,
    List.eraseIdx_cons_zero]

theorem Pair.Parts.erase_eq {pair : Pair lexed.tokens}
    {front middle back : List Fragment}
    (hparts : pair.Parts ps front middle back) :
    pair.erase (texts ps) = texts (front ++ (middle ++ back)) := by
  have hclose :
      texts ps = texts (front ++ .mark '(' :: middle) ++
        ')' :: texts back := by
    rw [hparts.row, ← texts_mark, List.append_assoc, List.cons_append]
  rw [Pair.erase, hparts.closing, hparts.opening, hclose, eraseIdx_length,
    texts_mark, List.append_assoc, List.cons_append, eraseIdx_length,
    texts_append, texts_append]

end Pairs

/-! ## Printed trees -/

section Printed

variable {encoding : Encoding} {keep keep' : Bool} {source again : Source}
variable {identification identification' : String} {tree other : Tree}
variable {text : String}
variable {lexed : Lexed}

theorem weigh_separators {spares : Lead → Bool} {ts : List Token}
    (hts : ∀ t ∈ ts, t.kind = .separator) (lead : Lead) :
    weigh spares lead (ts.map Token.kind) = 0 := by
  induction ts generalizing lead with
  | nil => rfl
  | cons t ts ih =>
      obtain ⟨ht, hmore⟩ := List.forall_mem_cons.mp hts
      rw [List.map_cons, ht, weigh_separator, ih hmore]

/-- The tokens of a printed text weigh what its statements cost, whether or not
the parentheses around a number behind a binary minus count: there are none. -/
theorem Tree.Sound.weigh_print (hsound : Tree.Sound tree)
    (hprint : print tree = .ok text) (encoding : Encoding) :
    ∃ lexed, lex encoding text.toList = .ok lexed ∧
      ∀ spares, Expr.IsSparing spares →
        weigh spares .other (lexed.tokens.map Token.kind) =
        Expr.costList [] (programOf tree.root) := by
  obtain ⟨hnone, lists, hspells, hlines⟩ := hsound.exists_lines hprint
  rw [atoms_of_rootOf hsound.root] at hnone
  have hnative :=
    Expr.nativeList_of_writable
      (Expr.writableList_of_scoped hsound.scopes) hnone
  obtain ⟨toks, lexed, hlex, hkinds, htrails⟩ :=
    exists_lex_lines (hspells.lexes encoding)
      fun comment hcomment => (hsound.comments comment hcomment).1
  refine ⟨lexed.prepend toks, ?_, fun spares hspares => ?_⟩
  · rw [hlines]
    exact hlex
  · have hwords : Expr.WeighsList spares [] (programOf tree.root) :=
      Expr.weigh_wordsList hspares hnative hsound.scopes
    rw [Lexed.prepend, List.map_append, hkinds,
      hwords (.inl rfl) Lead.other_ne_operand
        (weigh_separators htrails.separators), Nat.add_zero]

/-- The statements of a tree that is read cost no more than the tokens weigh
that it is read from. -/
theorem costList_le_of_parse (hfits : again.bytes.length < 2 ^ 63)
    (hparse : parse keep again identification = .ok other)
    (hlex : lex again.encoding again.text = .ok lexed) :
    Expr.costList [] (programOf other.root) ≤
      weigh Lead.isMinus .other (lexed.tokens.map Token.kind) := by
  obtain ⟨lexed', nodes, hlex', hread, rfl⟩ := parse_eq_ok hparse
  obtain rfl : lexed = lexed' := Except.ok.inj (hlex.symm.trans hlex')
  have hlength := again.length_text_le
  have hroom : Place.start.line + again.text.length ≤ 2 ^ 63 := by
    have hline : Place.start.line = 1 := rfl
    omega
  have htokens := (sound_of_lexFrom hroom hlex).1
  obtain ⟨locals', cost, -, hprogram⟩ := derivesProgram_of_statements hread
  have hbound := hprogram.cost_le (htokens.of_subset (skipSeparators_subset _))
  unfold Bounds at hbound
  rw [weigh_skipSeparators] at hbound
  exact (costList_programOf_le nodes).trans hbound

theorem costList_eq_of_sameRoot (hsame : tree.sameRoot other = true) :
    Expr.costList [] (programOf tree.root) =
      Expr.costList [] (programOf other.root) := by
  have hroots :
      tree.root.map Node.withoutSpans = other.root.map Node.withoutSpans := by
    unfold Tree.sameRoot at hsame
    cases htree : tree.root <;> cases hother : other.root <;>
      rw [htree, hother] at hsame
    · cases hsame
    · cases hsame
    · exact congrArg some ((Node.same_eq_true_iff _ _).mp hsame)
  rw [← Expr.costList_withoutSpans, ← programOf_withoutSpans, hroots,
    programOf_withoutSpans, Expr.costList_withoutSpans]

/-- A pair that only the minus in front makes up for is the operand of that
minus. -/
theorem Pair.isSignOperand (pair : Pair lexed.tokens)
    (hlead : (Lead.other.after (pair.before.map Token.kind)).isMinus = true)
    (hsigned : closesSigned
      (pair.inside.map Token.kind ++
        .rightParen :: pair.after.map Token.kind) = true)
    (hweigh : weigh Lead.isMinus .other (lexed.tokens.map Token.kind) =
      weigh Lead.isNegation .other (lexed.tokens.map Token.kind)) :
    pair.IsSignOperand := by
  refine ⟨exists_of_after_eq_negation ?_,
    pair.balanced.eq_of_closesSigned hsigned⟩
  by_contra hnegation
  have hcounted :
      (Lead.other.after (pair.before.map Token.kind)).isNegation = false := by
    simpa [Lead.isNegation] using hnegation
  have hlt := @weigh_lt_of_spared Lead.isNegation Lead.isMinus .other _ _
    (fun _ => Lead.isMinus_of_isNegation) hcounted hlead hsigned
  rw [pair.tokens_eq] at hweigh
  simp only [List.map_append, List.map_cons, pair.opens, pair.closes] at hweigh
  omega

/-- In a printed text every pair of parentheses is needed, but for those around
the negative number that is the operand of a minus: without the two characters
the text is rejected, or it is read as another tree. -/
theorem parentheses_needed (hfits : source.bytes.length < 2 ^ 63)
    (hparse : parse keep source identification = .ok tree)
    (hprint : print tree = .ok text) (encoding : Encoding) :
    ∃ lexed, lex encoding text.toList = .ok lexed ∧
      ∀ pair : Pair lexed.tokens, ¬ pair.IsSignOperand →
        ∀ {keep' again identification' other}, again.bytes.length < 2 ^ 63 →
          again.text = pair.erase text.toList →
          parse keep' again identification' = .ok other →
            tree.sameRoot other = false := by
  have hsound := sound_of_parse hfits hparse
  obtain ⟨lexed, hlex, hweigh⟩ := hsound.weigh_print hprint encoding
  obtain ⟨ps, htexts, hps, hrow⟩ :=
    exists_fragments (fun comment hcomment =>
      (hsound.comments comment hcomment).1) hprint
  rw [← htexts] at hlex ⊢
  refine ⟨lexed, hlex, fun pair hpair => ?_⟩
  intro keep' again identification' other hagain htext hother
  have hstrict := hweigh Lead.isNegation Expr.isSparing_isNegation
  have hloose := hweigh Lead.isMinus Expr.isSparing_isMinus
  obtain ⟨front, middle, back, hparts⟩ := pair.exists_parts hps hrow hlex
  have hspares : ¬ ((Lead.other.after (kinds front)).isMinus = true ∧
      closesSigned (kinds middle ++ .rightParen :: kinds back) = true) := by
    rw [← hparts.before, ← hparts.inside, ← hparts.after]
    rintro ⟨hlead, hsigned⟩
    exact hpair (pair.isSignOperand hlead hsigned (hloose.trans hstrict.symm))
  obtain ⟨lexed', nodes, hlex', -⟩ := parse_eq_ok hother
  have hcost := costList_le_of_parse hagain hother hlex'
  rw [htext, hparts.erase_eq] at hlex'
  have hbalanced : Balanced (kinds middle) := hparts.inside ▸ pair.balanced
  have hkinds :
      kinds front ++ .leftParen ::
        (kinds middle ++ .rightParen :: kinds back) =
      lexed.tokens.map Token.kind := by
    rw [hrow.kinds_eq hps hlex, hparts.row, kinds_append, kinds_cons,
      kinds_append, kinds_cons]
    rfl
  rw [hparts.row] at hps hrow
  have hless := weigh_lt_of_cut hps hrow hbalanced hspares hlex'
  by_contra hsame
  apply Nat.lt_irrefl (Expr.costList [] (programOf tree.root))
  calc Expr.costList [] (programOf tree.root)
      = Expr.costList [] (programOf other.root) :=
        costList_eq_of_sameRoot (by simpa using hsame)
    _ ≤ weigh Lead.isMinus .other (lexed'.tokens.map Token.kind) := hcost
    _ < weigh Lead.isMinus .other
          (kinds front ++ .leftParen ::
            (kinds middle ++ .rightParen :: kinds back)) := hless
    _ = weigh Lead.isMinus .other (lexed.tokens.map Token.kind) := by
      rw [hkinds]
    _ = Expr.costList [] (programOf tree.root) := hloose

end Printed

def groupedFactor : List Char :=
  "a * (b + c)".toList

def groupedTokens : List Token :=
  [(.ident "a", 0), (.star, 2), (.leftParen, 4), (.ident "b", 5), (.plus, 7),
    (.ident "c", 9),
    (.rightParen, 10)].map fun (kind, offset) =>
      ⟨kind, ⟨offset, 1, offset + 1⟩, offset + 1⟩

def groupedPair {tokens : List Token} (htokens : tokens = groupedTokens) :
    Pair tokens where
  before := groupedTokens.take 2
  opening := ⟨.leftParen, ⟨4, 1, 5⟩, 5⟩
  inside := (groupedTokens.drop 3).take 3
  closing := ⟨.rightParen, ⟨10, 1, 11⟩, 11⟩
  after := []
  tokens_eq := htokens
  opens := rfl
  closes := rfl
  balanced := .token nofun nofun (.token nofun nofun (.token nofun nofun .nil))

/-- Without its parentheses the product is read as a sum. -/
theorem groupedFactor_differs :
    ∃ tree text lexed, parse true (.ofText groupedFactor) "example" =
      .ok tree ∧
      print tree = .ok text ∧ lex .utf8 text.toList = .ok lexed ∧
      ∃ (pair : Pair lexed.tokens) (other : Tree), ¬ pair.IsSignOperand ∧
        pair.erase text.toList = "a * b + c".toList ∧
        parse true (.ofText "a * b + c".toList) "example" = .ok other ∧
        tree.sameRoot other = false := by
  have hread : (parse true (.ofText groupedFactor) "example").toOption.map
      (fun tree => (print tree).toOption) = some (some "a * (b + c)") := by
        decide +kernel
  have hreread :
      (parse true (.ofText "a * b + c".toList) "example").toOption.map
      (fun _ => ()) = some () := by decide +kernel
  have htokens : (lex .utf8 "a * (b + c)".toList).toOption.map (·.tokens) =
      some groupedTokens := by decide +kernel
  obtain ⟨tree, hparse, hprinted⟩ := exists_parse_of_map hread
  obtain ⟨other, hother, -⟩ := exists_parse_of_map hreread
  obtain ⟨text, hprint⟩ := exists_print_of_isSome (by rw [hprinted]; rfl)
  obtain rfl : text = "a * (b + c)" := by
    rw [hprint] at hprinted
    exact Option.some.inj hprinted
  obtain ⟨lexed, hlex, hneeded⟩ :=
    parentheses_needed (by decide +kernel) hparse hprint .utf8
  rw [hlex] at htokens
  have htokens : lexed.tokens = groupedTokens := Option.some.inj htokens
  have herase :
      (groupedPair htokens).erase "a * (b + c)".toList =
        "a * b + c".toList := by
    change ("a * (b + c)".toList.eraseIdx 10).eraseIdx 4 = _
    decide +kernel
  have hsign : ¬ (groupedPair htokens).IsSignOperand := by
    rintro ⟨-, number, -, hinside⟩
    cases hinside
  refine ⟨tree, _, lexed, hparse, hprint, hlex, groupedPair htokens, other,
    hsign, herase, hother,
    hneeded (groupedPair htokens) hsign ?_ ?_ hother⟩
  · decide +kernel
  · rw [herase]
    exact Utf8.decodeLossy_encode _

/-- Behind a minus the parentheses of a negative number are printed, but not
needed. -/
example : (do
    let tree ← (parse true (.ofText "-(-5)".toList) "example").toOption
    let text ← (print tree).toOption
    let other ← (parse true (.ofText "--5".toList) "example").toOption
    pure (text, tree.sameRoot other)) = some ("-(-5)", true) := by
  decide +kernel

end Reparse.Toy
