import Reparse.Proofs.Toy.Characters
import Reparse.Proofs.Toy.Formed
import Reparse.Proofs.Tree.Texts

/-!
# What writing an expression yields

Writing a writable expression fails for the first atom without a spelling, in
the order of the text, and otherwise yields a text that reads as the words of
the expression and is covered by its texts.
-/

namespace Reparse.Toy

open Text

/-! ## Atoms without a spelling -/

/-- Why an atom has no spelling.  A symbol that is named like a reserved word
is read, but not written. -/
def spellingError? : Atom → Option PrintError
  | .float value =>
      if value.isFinite then none else some (notFiniteError value)
  | .bytes data => some (bytesError data)
  | .sym name =>
    if name ∈ reservedWords then
      some (.unsupported (Node.toString (.bare "sym" [.atom (.sym name)])))
    else none
  | _ => none

namespace Expr

/-! ## How a text was written -/

section Written

variable {locals locals' : List String} {w : Written} {name : String}
variable {left operand right value : Expr} {op : Operator} {es : List Expr}

theorem write_float_eq_ok_iff {x : Binary64} :
    (float x).write locals = .ok (w, locals') ↔
      x.isFinite = true ∧ w = numeral x.isNegative x.literal ∧
        locals' = locals := by
  rw [write]
  split
  · next hfinite =>
      constructor
      · intro hwrite
        cases hwrite
        exact ⟨hfinite, rfl, rfl⟩
      · rintro ⟨-, rfl, rfl⟩
        rfl
  · next hinfinite => simp [hinfinite]

theorem write_assign_eq_ok_iff :
    (assign name value).write locals = .ok (w, locals') ↔
      ∃ v, value.write (name :: locals) = .ok (v, locals') ∧
        w = ⟨name.toList ++ " = ".toList ++ v.text, assignLevel⟩ := by
  rw [write]
  constructor
  · intro hwrite
    split at hwrite <;> cases hwrite
    exact ⟨_, ‹_›, rfl⟩
  · rintro ⟨v, hvalue, rfl⟩
    rw [hvalue]

theorem write_sequence_eq_ok_iff :
    (sequence es).write locals = .ok (w, locals') ↔
      ∃ texts, writeList locals es = .ok (texts, locals') ∧
        w = ⟨parenthesize (joinWith "; ".toList texts), atomLevel⟩ := by
  rw [write]
  constructor
  · intro hwrite
    split at hwrite <;> cases hwrite
    exact ⟨_, ‹_›, rfl⟩
  · rintro ⟨texts, hitems, rfl⟩
    rw [hitems]

theorem write_negate_eq_ok_iff :
    (negate operand).write locals = .ok (w, locals') ↔
      ∃ v, operand.write locals = .ok (v, locals') ∧
        w = ⟨'-' :: if operand.isNumeral then parenthesize v.text
          else v.atLeast unaryLevel, unaryLevel⟩ := by
  rw [write]
  constructor
  · intro hwrite
    split at hwrite <;> cases hwrite
    exact ⟨_, ‹_›, rfl⟩
  · rintro ⟨v, hoperand, rfl⟩
    rw [hoperand]

theorem write_infixed_eq_ok_iff :
    (infixed left op right).write locals = .ok (w, locals') ↔
      ∃ l between, left.write locals = .ok (l, between) ∧
        ∃ r, right.write between = .ok (r, locals') ∧
          w = ⟨l.atLeast op.tier.level ++ [' ', op.sign, ' '] ++
            r.atLeast (op.tier.level + 1), op.tier.level⟩ := by
  rw [write]
  constructor
  · intro hwrite
    split at hwrite
    · cases hwrite
    next l between hleft =>
    split at hwrite <;> cases hwrite
    exact ⟨l, between, hleft, _, ‹_›, rfl⟩
  · rintro ⟨l, between, hleft, r, hright, rfl⟩
    rw [hleft]
    dsimp only
    rw [hright]

theorem write_call_eq_ok_iff :
    (call name es).write locals = .ok (w, locals') ↔
      ∃ texts, writeList locals es = .ok (texts, locals') ∧
        w = ⟨name.toList ++ if texts.isEmpty && name ∉ locals' then []
          else parenthesize (joinWith ", ".toList texts), atomLevel⟩ := by
  rw [write]
  constructor
  · intro hwrite
    split at hwrite <;> cases hwrite
    exact ⟨_, ‹_›, rfl⟩
  · rintro ⟨texts, hargs, rfl⟩
    rw [hargs]

theorem writeList_cons_eq_ok_iff {lists : List (List Char)} :
    writeList locals (value :: es) = .ok (lists, locals') ↔
      ∃ v between, value.write locals = .ok (v, between) ∧
        ∃ more, writeList between es = .ok (more, locals') ∧
          lists = v.text :: more := by
  rw [writeList]
  constructor
  · intro hwrite
    split at hwrite
    · cases hwrite
    next v between hfirst =>
    split at hwrite <;> cases hwrite
    exact ⟨v, between, hfirst, _, ‹_›, rfl⟩
  · rintro ⟨v, between, hfirst, more, hmore, rfl⟩
    rw [hfirst]
    dsimp only
    rw [hmore]

end Written

/-! ## Errors of writing -/

/-- The error for the first atom without a spelling. -/
def failure? (e : Expr) : Option PrintError :=
  e.toNode.atoms.findSome? spellingError?

def failureList? (es : List Expr) : Option PrintError :=
  (Child.atomsList (toNodes es)).findSome? spellingError?

section Failures

variable {name : String} {e left right : Expr} {es : List Expr}

theorem spellingError?_name (hname : isName name = true) :
    spellingError? (.sym name) = none :=
  if_neg (not_mem_reservedWords_of_isName hname)

theorem failure?_atom {kind : String} {atom : Atom}
    (hnode : e.toNode = .bare kind [.atom atom]) :
    e.failure? = spellingError? atom := by
  unfold failure?
  rw [hnode]
  cases hspelling : spellingError? atom <;>
    simp [Node.bare, Node.atoms, Child.atomsList, Child.atoms, hspelling]

theorem failureList?_cons :
    failureList? (e :: es) = e.failure?.or (failureList? es) := by
  unfold failureList? failure?
  rw [toNodes, Child.atomsList, List.findSome?_append]
  rfl

theorem failure?_assign (hname : isName name = true) :
    (assign name e).failure? = e.failure? := by
  unfold failure?
  rw [toNode]
  simp [Node.bare, Node.atoms, Child.atomsList, Child.atoms,
    spellingError?_name hname]

theorem failure?_negate : (negate e).failure? = e.failure? := by
  have hsymbol : spellingError? (.sym negationSymbol) = none := by decide
  unfold failure?
  rw [toNode]
  simp [Node.bare, Node.atoms, Child.atomsList, Child.atoms, hsymbol]

theorem failure?_infixed {op : Operator} :
    (infixed left op right).failure? = left.failure?.or right.failure? := by
  have hsymbol : spellingError? (.sym op.symbol) = none := by
    cases op <;> decide
  unfold failure?
  rw [toNode]
  simp [Node.bare, Node.atoms, Child.atomsList, Child.atoms, hsymbol]

theorem failure?_sequence : (sequence es).failure? = failureList? es := by
  unfold failure? failureList?
  rw [toNode]
  rfl

theorem failure?_call (hname : isName name = true) :
    (call name es).failure? = failureList? es := by
  unfold failure? failureList?
  rw [toNode]
  have hnil : spellingError? .nil = none := rfl
  simp [Node.bare, Node.atoms, Child.atomsList, Child.atoms, hnil,
    spellingError?_name hname]

end Failures

end Expr

/-! ## Words -/

section Words

variable {encoding : Encoding} {s : List Char} {kinds : List TokenKind}

theorem Lexes.wrap {parens : Bool} (hs : Lexes encoding s kinds) :
    Lexes encoding (if parens then parenthesize s
      else s) (Expr.wrapWords parens kinds) := by
  cases parens with
  | false => exact hs
  | true => exact hs.enclose

theorem Lexes.intercalate {sep : List Char} {kind : TokenKind}
    {lists : List (List Char)} {kindss : List (List TokenKind)}
    (hsep : ∀ {s kinds}, Lexes encoding s kinds →
      Lexes encoding (sep ++ s) (kind :: kinds))
    (hdelimited : ∀ s, Delimited (sep ++ s))
    (hlists : List.Forall₂ (Lexes encoding) lists kindss) :
    Lexes encoding (sep.intercalate lists) ([kind].intercalate kindss) := by
  induction hlists with
  | nil => exact .nil
  | @cons s kinds lists kindss hs hrest ih =>
      cases hrest with
      | nil => simpa using hs
      | cons ht hrest =>
          rw [List.intercalate_cons_cons, List.intercalate_cons_cons,
            List.append_assoc, List.append_assoc]
          exact hs.append (hsep ih) (hdelimited _)

/-- Texts between marks with a blank after each. -/
theorem Lexes.separate {c : Char} {kind : TokenKind} {lists : List (List Char)}
    {kindss : List (List TokenKind)} (hmark : markToken? c = some kind)
    (hdelimiter : isDelimiter c = true)
    (hlists : List.Forall₂ (Lexes encoding) lists kindss) :
    Lexes encoding ([c, ' '].intercalate lists) ([kind].intercalate kindss) :=
  .intercalate (fun hs => .mark hmark (.skip rfl hs)) (fun _ =>
    delimited_cons hdelimiter) hlists

end Words

/-! ## Writing -/

namespace Expr

def texts (e : Expr) : List String :=
  e.toNode.textsWithin

def textsList (es : List Expr) : List String :=
  Child.textsWithinList (toNodes es)

structure Spells (e : Expr) (locals : List String) (w : Written) : Prop where
  level : w.level = e.level
  lexes : ∀ encoding, Lexes encoding w.text (e.words locals)
  chars : Covered e.texts w.text

/-- Writing an expression reports the first atom without a spelling, and
otherwise yields its text. -/
def Outcome (locals : List String) (e : Expr) : Prop :=
  (∃ error, e.failure? = some error ∧ e.write locals = .error error) ∨
    (e.failure? = none ∧ ∃ w, e.write locals = .ok (w, e.assigned ++ locals) ∧
      e.Spells locals w)

structure SpellsList (es : List Expr) (locals : List String)
    (lists : List (List Char)) : Prop where
  lexes : ∀ encoding, List.Forall₂ (Lexes encoding) lists (wordsList locals es)
  chars : ∀ s ∈ lists, Covered (textsList es) s

def OutcomeList (locals : List String) (es : List Expr) : Prop :=
  (∃ error, failureList? es = some error ∧
    writeList locals es = .error error) ∨
    (failureList? es = none ∧ ∃ lists,
      writeList locals es = .ok (lists, assignedList es ++ locals) ∧
        SpellsList es locals lists)

section Outcomes

variable {locals : List String} {name : String} {e left right : Expr}
variable {es : List Expr}

/-- An expression without a failure that is written as its words. -/
theorem Outcome.leaf {s : List Char} {level : Nat}
    (hfailure : e.failure? = none)
    (hwrite : e.write locals = .ok (⟨s, level⟩, locals))
    (hassigned : e.assigned = []) (hlevel : level = e.level)
    (hlexes : ∀ encoding, Lexes encoding s (e.words locals))
    (hchars : Covered e.texts s) : e.Outcome locals := by
  refine .inr ⟨hfailure, ⟨s, level⟩, ?_, hlevel, hlexes, hchars⟩
  rw [hassigned]
  exact hwrite

theorem texts_subset_assign : e.texts ⊆ (assign name e).texts := by
  unfold texts
  rw [toNode]
  exact Child.textsWithin_subset_of_mem (c := .node e.toNode) (by simp)

theorem texts_subset_negate : e.texts ⊆ (negate e).texts := by
  unfold texts
  rw [toNode]
  exact Child.textsWithin_subset_of_mem (c := .node e.toNode) (by simp)

theorem texts_subset_left {op : Operator} :
    left.texts ⊆ (infixed left op right).texts := by
  unfold texts
  rw [toNode]
  exact Child.textsWithin_subset_of_mem (c := .node left.toNode) (by simp)

theorem texts_subset_right {op : Operator} :
    right.texts ⊆ (infixed left op right).texts := by
  unfold texts
  rw [toNode]
  exact Child.textsWithin_subset_of_mem (c := .node right.toNode) (by simp)

theorem textsList_subset_call : textsList es ⊆ (call name es).texts := by
  unfold texts textsList
  rw [toNode]
  simp [Node.bare, Node.textsWithin, Child.textsWithinList, Child.textsWithin,
    Atom.text?]

theorem textsList_sequence : (sequence es).texts = textsList es := by
  unfold texts textsList
  rw [toNode]
  rfl

theorem textsList_cons : textsList (e :: es) = e.texts ++ textsList es := by
  unfold texts textsList
  rw [toNodes]
  rfl

/-! ### Characters, shape by shape -/

theorem covered_atLeast {texts : List String} {w : Written} (least : Nat)
    (hchars : Covered texts w.text) : Covered texts (w.atLeast least) := by
  unfold Written.atLeast
  split
  · exact hchars.parenthesize
  · exact hchars

theorem covered_assign {s : List Char} (hname : isName name = true)
    (hchars : Covered e.texts s) :
    Covered (assign name e).texts (name.toList ++ " = ".toList ++ s) := by
  have hmark : Covered (assign name e).texts " = ".toList :=
    covered_of_ascii rfl
  exact ((covered_name hname).append hmark).append
    (hchars.mono texts_subset_assign)

theorem covered_negate {s : List Char} (hchars : Covered e.texts s) :
    Covered (negate e).texts ('-' :: s) :=
  .cons (by decide) (hchars.mono texts_subset_negate)

theorem covered_infixed {op : Operator} {l r : List Char}
    (hleft : Covered left.texts l) (hright : Covered right.texts r) :
    Covered (infixed left op right).texts (l ++ [' ', op.sign, ' '] ++ r) := by
  have hsign : Covered (infixed left op right).texts [' ', op.sign, ' '] :=
    covered_of_ascii (by cases op <;> rfl)
  exact ((hleft.mono texts_subset_left).append hsign).append
    (hright.mono texts_subset_right)

theorem covered_sequence {lists : List (List Char)}
    (hchars : ∀ s ∈ lists, Covered (textsList es) s) :
    Covered (sequence es).texts
      (parenthesize (joinWith "; ".toList lists)) := by
  rw [textsList_sequence]
  exact (Covered.intercalate (covered_of_ascii rfl) hchars).parenthesize

theorem covered_call {lists : List (List Char)} {bare : Bool}
    (hname : isName name = true)
    (hchars : ∀ s ∈ lists, Covered (textsList es) s) :
    Covered (call name es).texts
      (name.toList ++ if bare then []
        else parenthesize (joinWith ", ".toList lists)) := by
  refine (covered_name hname).append ?_
  split
  · exact .nil
  · refine Covered.parenthesize (Covered.intercalate (covered_of_ascii rfl) ?_)
    exact fun s hs => (hchars s hs).mono textsList_subset_call

theorem covered_decimalInt {texts : List String} (i : Int) :
    Covered texts (decimalInt i) := by
  unfold decimalInt
  split
  · exact .cons (by decide) (covered_decimal _)
  · exact covered_decimal _

/-! ### Outcomes, shape by shape -/

theorem outcome_assign (hname : isName name = true)
    (he : e.Outcome (name :: locals)) :
    (assign name e).Outcome locals := by
  unfold Outcome
  rw [failure?_assign hname, write]
  rcases he with ⟨error, hfailure, hwrite⟩ | ⟨hfailure, w, hwrite, hspells⟩
  · exact .inl ⟨error, hfailure, by rw [hwrite]⟩
  · refine .inr
      ⟨hfailure, ⟨name.toList ++ " = ".toList ++ w.text, assignLevel⟩, ?_, rfl,
        fun encoding => ?_, ?_⟩
    · rw [hwrite, assigned, List.append_assoc _ [name], List.singleton_append]
    · rw [words, List.append_assoc]
      refine Lexes.append (.name hname) ?_ (delimited_cons rfl)
      exact .skip rfl (.mark rfl (.skip rfl (hspells.lexes encoding)))
    · exact covered_assign hname hspells.chars

theorem outcome_negate (he : e.Outcome locals) :
    (negate e).Outcome locals := by
  unfold Outcome
  rw [failure?_negate, write]
  rcases he with ⟨error, hfailure, hwrite⟩ | ⟨hfailure, w, hwrite, hspells⟩
  · exact .inl ⟨error, hfailure, by rw [hwrite]⟩
  · have hoperand :
        (if e.isNumeral = true then parenthesize w.text
          else w.atLeast unaryLevel) =
        if e.needsParens then parenthesize w.text else w.text := by
      unfold needsParens Written.atLeast
      rw [hspells.level]
      by_cases hnumeral : e.isNumeral = true <;>
        by_cases hlevel : e.level < unaryLevel <;>
        simp [hnumeral, hlevel]
    refine .inr ⟨hfailure,
      ⟨'-' :: (if e.needsParens then parenthesize w.text else w.text),
        unaryLevel⟩, ?_, rfl,
      fun encoding => ?_, ?_⟩
    · rw [hwrite, assigned]
      dsimp only
      rw [hoperand]
    · rw [words]
      exact .mark rfl (hspells.lexes encoding).wrap
    · refine covered_negate ?_
      split
      · exact hspells.chars.parenthesize
      · exact hspells.chars

theorem atLeast_eq {w : Written} {least : Nat} (hlevel : w.level = e.level) :
    w.atLeast least = if decide (e.level < least) then parenthesize w.text
      else w.text := by
  unfold Written.atLeast
  rw [hlevel]
  simp

theorem outcome_infixed {op : Operator} (hleft : left.Outcome locals)
    (hright : right.Outcome (left.assigned ++ locals)) :
    (infixed left op right).Outcome locals := by
  unfold Outcome
  rw [failure?_infixed, write]
  rcases hleft with ⟨error, hfailure, hwrite⟩ | ⟨hfailure, l, hwrite, hspells⟩
  · exact .inl ⟨error, by rw [hfailure]; rfl, by rw [hwrite]⟩
  rcases hright with
    ⟨error, hfailure', hwrite'⟩ | ⟨hfailure', r, hwrite', hspells'⟩
  · refine .inl ⟨error, by rw [hfailure, hfailure']; rfl, ?_⟩
    rw [hwrite]
    dsimp only
    rw [hwrite']
  · refine .inr ⟨by rw [hfailure, hfailure']; rfl,
      ⟨l.atLeast op.tier.level ++ [' ', op.sign, ' '] ++
        r.atLeast (op.tier.level + 1), op.tier.level⟩,
      ?_, rfl, fun encoding => ?_, ?_⟩
    · rw [hwrite]
      dsimp only
      rw [hwrite', assigned, List.append_assoc right.assigned]
    · rw [words, List.append_assoc, atLeast_eq hspells.level,
        atLeast_eq hspells'.level]
      have hmark : markToken? op.sign = some op.token := by cases op <;> rfl
      refine (hspells.lexes encoding).wrap.append ?_ (delimited_cons rfl)
      exact .skip rfl (.mark hmark (.skip rfl (hspells'.lexes encoding).wrap))
    · exact covered_infixed (covered_atLeast _ hspells.chars)
        (covered_atLeast _ hspells'.chars)

theorem outcomeList_nil : OutcomeList locals [] :=
  .inr ⟨rfl, [], rfl, fun _ => .nil, by simp⟩

theorem outcomeList_cons (he : e.Outcome locals)
    (hes : OutcomeList (e.assigned ++ locals) es) :
    OutcomeList locals (e :: es) := by
  unfold OutcomeList
  rw [failureList?_cons, writeList]
  rcases he with ⟨error, hfailure, hwrite⟩ | ⟨hfailure, w, hwrite, hspells⟩
  · exact .inl ⟨error, by rw [hfailure]; rfl, by rw [hwrite]⟩
  rcases hes with
    ⟨error, hfailure', hwrite'⟩ | ⟨hfailure', lists, hwrite', hspells'⟩
  · refine .inl ⟨error, by rw [hfailure, hfailure']; rfl, ?_⟩
    rw [hwrite]
    dsimp only
    rw [hwrite']
  · refine .inr ⟨by rw [hfailure, hfailure']; rfl, w.text :: lists, ?_,
      fun encoding => ?_, ?_⟩
    · rw [hwrite]
      dsimp only
      rw [hwrite', assignedList, List.append_assoc]
    · rw [wordsList]
      exact .cons (hspells.lexes encoding) (hspells'.lexes encoding)
    · rw [textsList_cons]
      intro s hs
      rcases List.mem_cons.mp hs with rfl | hs
      · exact hspells.chars.mono (List.subset_append_left _ _)
      · exact (hspells'.chars s hs).mono (List.subset_append_right _ _)

theorem outcome_sequence (hes : OutcomeList locals es) :
    (sequence es).Outcome locals := by
  unfold Outcome
  rw [failure?_sequence, write]
  rcases hes with
    ⟨error, hfailure, hwrite⟩ | ⟨hfailure, lists, hwrite, hspells⟩
  · exact .inl ⟨error, hfailure, by rw [hwrite]⟩
  · refine .inr ⟨hfailure,
      ⟨parenthesize (joinWith "; ".toList lists), atomLevel⟩, ?_, rfl,
      fun encoding => ?_, ?_⟩
    · rw [hwrite, assigned]
    · rw [words]
      exact (Lexes.separate rfl rfl (hspells.lexes encoding)).enclose
    · exact covered_sequence hspells.chars

theorem isEmpty_eq_of_spells {lists : List (List Char)}
    (hspells : SpellsList es locals lists) :
    lists.isEmpty = es.isEmpty := by
  have hwords := hspells.lexes .utf8
  cases es with
  | nil =>
      cases hwords
      rfl
  | cons e es =>
      cases hwords
      rfl

theorem outcome_call (hname : isName name = true)
    (hes : OutcomeList locals es) :
    (call name es).Outcome locals := by
  unfold Outcome
  rw [failure?_call hname, write]
  rcases hes with
    ⟨error, hfailure, hwrite⟩ | ⟨hfailure, lists, hwrite, hspells⟩
  · exact .inl ⟨error, hfailure, by rw [hwrite]⟩
  have hempty := isEmpty_eq_of_spells hspells
  -- Without arguments nothing is assigned, so the names before the call decide
  -- about its parentheses.
  have hbare : (lists.isEmpty && decide (name ∉ assignedList es ++ locals)) =
      (es.isEmpty && decide (name ∉ locals)) := by
    rw [hempty]
    cases es with
    | nil => rfl
    | cons e es => rfl
  refine .inr
    ⟨hfailure,
      ⟨name.toList ++ if es.isEmpty && decide (name ∉ locals) then []
        else parenthesize (joinWith ", ".toList lists), atomLevel⟩,
      ?_, rfl, fun encoding => ?_, ?_⟩
  · rw [hwrite, assigned]
    dsimp only
    rw [hbare]
  · rw [words]
    by_cases hbare : (es.isEmpty && decide (name ∉ locals)) = true
    · simp only [hbare, if_true]
      exact Lexes.append (.name hname) .nil delimited_nil
    · simp only [hbare]
      refine Lexes.append (.name hname) ?_ (delimited_cons rfl)
      exact (Lexes.separate rfl rfl (hspells.lexes encoding)).enclose
  · exact covered_call hname hspells.chars

/-! ## Leaves -/

theorem outcome_int {value : Int64} (hvalue : value ≠ Int64.minValue) :
    (int value).Outcome locals := by
  have hlevel :
      (numeral (value < 0) (decimalInt value.toInt)).level =
        (int value).level := by
    simp [numeral, level]
  refine .leaf rfl rfl rfl hlevel (fun encoding => ?_) ?_
  · have hlow := value.le_toInt
    have hhigh := value.toInt_lt
    unfold decimalInt
    by_cases hsign : value.toInt < 0
    · have hne : value.toInt ≠ -2 ^ 63 :=
        fun heq => hvalue (Int64.toInt_inj.mp heq)
      have hbound : value.toInt.natAbs < 2 ^ 63 := by omega
      have habs : (value.toInt.natAbs : Int) = -value.toInt := by omega
      have hlexes : Lexes encoding (decimal value.toInt.natAbs) _ :=
        .int hbound
      rw [habs, ← Int64.neg_ofInt, Int64.ofInt_toInt] at hlexes
      rw [if_pos hsign, words, if_pos (Int64.lt_iff_toInt_lt.mpr hsign)]
      exact .mark rfl hlexes
    · have hbound : value.toInt.natAbs < 2 ^ 63 := by omega
      have habs : (value.toInt.natAbs : Int) = value.toInt := by omega
      have hlexes : Lexes encoding (decimal value.toInt.natAbs) _ :=
        .int hbound
      rw [habs, Int64.ofInt_toInt] at hlexes
      rw [if_neg hsign, words,
        if_neg fun h => hsign (Int64.lt_iff_toInt_lt.mp h)]
      exact hlexes
  · exact covered_decimalInt _

theorem outcome_float (value : Binary64) : (float value).Outcome locals := by
  have hatom : (float value).failure? = spellingError? (.float value) :=
    failure?_atom rfl
  by_cases hfinite : value.isFinite = true
  · refine .leaf (s := value.literal) (hatom.trans (if_pos hfinite)) ?_ rfl rfl
      (fun encoding => ?_) (covered_literal hfinite)
    · rw [write, if_pos hfinite]
      rfl
    · by_cases hsign : value.isNegative = true
      · have hlexes : Lexes encoding value.neg.literal [.float value.neg] :=
          .float (by simpa using hfinite) (by simp [hsign])
        unfold Binary64.literal at hlexes ⊢
        rw [Binary64.write_of_isNegative hfinite hsign]
        simp only [words, hsign, if_true]
        exact .mark rfl hlexes
      · have hlexes : Lexes encoding value.literal [.float value] :=
          .float hfinite (by simpa using hsign)
        simp only [words, hsign, Bool.false_eq_true, if_false]
        exact hlexes
  · refine .inl ⟨notFiniteError value, hatom.trans (if_neg hfinite), ?_⟩
    rw [write, if_neg hfinite]

theorem outcome_str (text : String) : (str text).Outcome locals := by
  refine .leaf rfl rfl rfl rfl (fun encoding => .str text) ?_
  exact covered_stringLiteral text

theorem outcome_sym (hsymbol : isSymbol name = true) :
    (sym name).Outcome locals := by
  have hspelling : spellingError? (.sym name) = none := by
    refine if_neg fun hreserved => ?_
    rw [isSymbol_of_mem_reservedWords hreserved] at hsymbol
    cases hsymbol
  refine .leaf ((failure?_atom rfl).trans hspelling) rfl rfl rfl
    (fun encoding => .symbol hsymbol) ?_
  exact .cons (by decide) (covered_symbol hsymbol)

theorem outcome_var (hname : isName name = true) : (var name).Outcome locals :=
  .leaf ((failure?_atom rfl).trans (spellingError?_name hname)) rfl rfl rfl
    (fun _ => .name hname) (covered_name hname)

theorem outcome_nil : Expr.nil.Outcome locals :=
  .leaf rfl rfl rfl rfl (fun _ => Lexes.word rfl rfl) (covered_of_ascii rfl)

theorem outcome_true : (bool true).Outcome locals :=
  .leaf rfl rfl rfl rfl (fun _ => Lexes.word rfl rfl) (covered_of_ascii rfl)

theorem outcome_false : (bool false).Outcome locals :=
  .leaf rfl rfl rfl rfl (fun _ => Lexes.word rfl rfl) (covered_of_ascii rfl)

/-- A symbol named like a reserved word is reported as a node of no known
kind. -/
theorem failure?_foreign {node : Node} (hwritable : (foreign node).Writable) :
    (foreign node).failure? = some (.unsupported node.toString) := by
  obtain ⟨name, hreserved, span, rfl⟩ := hwritable
  have hatom : (foreign (.mk "sym" [.atom (.sym name)] span)).failure? =
      spellingError? (.sym name) := failure?_atom rfl
  rw [hatom]
  exact if_pos hreserved

theorem outcome_foreign {node : Node} (hwritable : (foreign node).Writable) :
    (foreign node).Outcome locals :=
  .inl ⟨_, failure?_foreign hwritable, rfl⟩

end Outcomes

mutual

/-- What writing a writable expression yields. -/
theorem outcome_of_writable : ∀ {e : Expr} (locals : List String),
    e.Writable → e.Outcome locals
  | int _, _, hwritable => outcome_int hwritable
  | float value, _, _ => outcome_float value
  | str text, _, _ => outcome_str text
  | bytes _, _, _ => .inl ⟨_, rfl, rfl⟩
  | sym _, _, hwritable => outcome_sym hwritable
  | nil, _, _ => outcome_nil
  | bool true, _, _ => outcome_true
  | bool false, _, _ => outcome_false
  | var _, _, hwritable => outcome_var hwritable
  | assign _ _, _, hwritable =>
      outcome_assign hwritable.1 (outcome_of_writable _ hwritable.2)
  | sequence _, _, hwritable =>
      outcome_sequence (outcomeList_of_writable _ hwritable)
  | negate operand, _, hwritable =>
      outcome_negate (outcome_of_writable (e := operand) _ hwritable)
  | infixed _ _ _, _, hwritable =>
      outcome_infixed (outcome_of_writable _ hwritable.1)
        (outcome_of_writable _ hwritable.2)
  | call _ _, _, hwritable =>
      outcome_call hwritable.1 (outcomeList_of_writable _ hwritable.2)
  | foreign _, _, hwritable => outcome_foreign hwritable

theorem outcomeList_of_writable : ∀ {es : List Expr} (locals : List String),
    WritableList es → OutcomeList locals es
  | [], _, _ => outcomeList_nil
  | _ :: _, _, hwritable =>
      outcomeList_cons (outcome_of_writable _ hwritable.1)
        (outcomeList_of_writable _ hwritable.2)

end

mutual

/-- Of the writable expressions, only those without a spelling are foreign. -/
theorem native_of_writable :
    ∀ {e : Expr}, e.Writable → e.failure? = none → e.Native
  | int _, _, _ | float _, _, _ | str _, _, _ | bytes _, _, _ | sym _, _, _
  | nil, _, _
  | bool _, _, _ | var _, _, _ => trivial
  | assign _ value, hwritable, hfailure => by
      rw [failure?_assign hwritable.1] at hfailure
      exact native_of_writable (e := value) hwritable.2 hfailure
  | sequence _, hwritable, hfailure => by
      rw [failure?_sequence] at hfailure
      exact nativeList_of_writable hwritable hfailure
  | negate operand, hwritable, hfailure => by
      rw [failure?_negate] at hfailure
      exact native_of_writable (e := operand) hwritable hfailure
  | infixed _ _ _, hwritable, hfailure => by
      rw [failure?_infixed, Option.or_eq_none_iff] at hfailure
      exact ⟨native_of_writable hwritable.1 hfailure.1,
        native_of_writable hwritable.2 hfailure.2⟩
  | call _ _, hwritable, hfailure => by
      rw [failure?_call hwritable.1] at hfailure
      exact nativeList_of_writable hwritable.2 hfailure
  | foreign _, hwritable, hfailure => by
      rw [failure?_foreign hwritable] at hfailure
      cases hfailure

theorem nativeList_of_writable : ∀ {es : List Expr},
    WritableList es → failureList? es = none → NativeList es
  | [], _, _ => trivial
  | _ :: _, hwritable, hfailure => by
      rw [failureList?_cons, Option.or_eq_none_iff] at hfailure
      exact ⟨native_of_writable hwritable.1 hfailure.1,
        nativeList_of_writable hwritable.2 hfailure.2⟩

end

end Expr

end Reparse.Toy
