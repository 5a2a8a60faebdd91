import Reparse.Proofs.Toy.Stability

/-!
# Integers as operands

An integer literal may stand alone or anywhere in a program: as the value of an
assignment, among arguments or statements, beside an operator, behind a minus,
and in any of these within any other.  Printing and reading treat all integers
alike there, except the least one.  It is printed like the others, but its
digits are read without the sign and exceed the greatest integer then, so that
no text with it is read.
-/

namespace Reparse.Toy

open Text

/-- A node around a place for another one. -/
inductive Frame where
  | assigned (name : String)
  | argument (name : String) (before after : List Node)
  | statement (before after : List Node)
  | left (op : Operator) (other : Node)
  | right (other : Node) (op : Operator)
  | negated

def Frame.fill : Frame → Node → Node
  | .assigned name, hole => .bare "lvasgn" [symbol name, .node hole]
  | .argument name before after, hole =>
    .bare "send"
      (.atom .nil :: symbol name :: (before ++ hole :: after).map .node)
  | .statement before after, hole =>
      .bare "begin" ((before ++ hole :: after).map .node)
  | .left op other, hole => binary hole op other
  | .right other op, hole => binary other op hole
  | .negated, hole => .bare "send" [.node hole, symbol negationSymbol]

/-- The node in the innermost frame; the first frame is the outermost. -/
def plug (frames : List Frame) (hole : Node) : Node :=
  frames.foldr Frame.fill hole

def integer (value : Int64) : Node :=
  .bare "int" [.atom (.int value)]

/-- The tree with an integer in the innermost frame. -/
def operandTree (frames : List Frame) (value : Int64) : Tree :=
  ⟨some (plug frames (integer value)), none⟩

namespace Expr

/-! ## Expressions that may stand for each other -/

/-- How many statements a sequence holds; any other expression is one. -/
def statementCount : Expr → Nat
  | sequence items => items.length
  | _ => 1

/-- Where the first expression stands, the second is written and read as well,
provided that it is one that a parser may have read, which `sound` decides. -/
structure Substitutes (sound : Prop) (e e' : Expr) : Prop where
  assigned : e'.assigned = e.assigned
  count : e'.statementCount = e.statementCount
  spine : ∀ tier, e'.spine tier = e.spine tier
  numeral : e'.isNumeral = e.isNumeral
  level : ∀ least ≤ unaryLevel, e'.level < least ↔ e.level < least
  nesting : e'.nesting = e.nesting
  writes : ∀ {locals locals' w}, e.write locals = .ok (w, locals') →
    ∃ w', e'.write locals = .ok (w', locals')
  inScope : ∀ {locals}, e.Scoped locals → (e'.Scoped locals ↔ sound)
  writable : e'.Writable → sound

structure SubstitutesList (sound : Prop) (es es' : List Expr) : Prop where
  length : es'.length = es.length
  assigned : assignedList es' = assignedList es
  nesting : nestingList es' = nestingList es
  writes :
    ∀ {locals locals' lists}, writeList locals es = .ok (lists, locals') →
    ∃ lists', writeList locals es' = .ok (lists', locals')
  inScope : ∀ {locals}, ScopedList locals es → (ScopedList locals es' ↔ sound)
  writable : WritableList es' → sound

/-- An integer stands for another unless it is the least. -/
theorem substitutes_int {value : Int64} :
    Substitutes (value ≠ Int64.minValue) (int 0) (int value) where
  assigned := rfl
  count := rfl
  spine _ := rfl
  numeral := rfl
  level least hleast := by
    have hunary : ∀ value, unaryLevel ≤ (int value).level := by
      intro value
      rw [Expr.level]
      split <;> decide
    exact iff_of_false (Nat.not_lt.mpr (Nat.le_trans hleast (hunary value)))
      (Nat.not_lt.mpr (Nat.le_trans hleast (hunary 0)))
  nesting := rfl
  writes hwrite := by
    cases hwrite
    exact ⟨_, rfl⟩
  inScope _ := Iff.rfl
  writable hwritable := hwritable

section Substitutes

variable {sound : Prop} {e e' : Expr} {es es' : List Expr} {name : String}

theorem Substitutes.needsParens (hsub : Substitutes sound e e') :
    e'.needsParens = e.needsParens := by
  unfold Expr.needsParens
  rw [hsub.numeral]
  simp [hsub.level unaryLevel (Nat.le_refl _)]

theorem Substitutes.assign (hsub : Substitutes sound e e')
    (hname : isName name = true) :
    Substitutes sound (assign name e) (assign name e') where
  assigned := by simp only [Expr.assigned, hsub.assigned]
  count := rfl
  spine _ := rfl
  numeral := rfl
  level _ _ := Iff.rfl
  nesting := by simp only [Expr.nesting, hsub.nesting]
  writes hwrite := by
    obtain ⟨v, hvalue, -⟩ := write_assign_eq_ok_iff.mp hwrite
    obtain ⟨v', hvalue'⟩ := hsub.writes hvalue
    exact ⟨_, write_assign_eq_ok_iff.mpr ⟨v', hvalue', rfl⟩⟩
  inScope hscoped := by simpa [Scoped, hname] using hsub.inScope hscoped.2
  writable hwritable := hsub.writable hwritable.2

theorem Substitutes.negate (hsub : Substitutes sound e e') :
    Substitutes sound (negate e) (negate e') where
  assigned := hsub.assigned
  count := rfl
  spine _ := rfl
  numeral := rfl
  level _ _ := Iff.rfl
  nesting := by simp only [Expr.nesting, hsub.nesting, hsub.needsParens]
  writes hwrite := by
    obtain ⟨v, hoperand, -⟩ := write_negate_eq_ok_iff.mp hwrite
    obtain ⟨v', hoperand'⟩ := hsub.writes hoperand
    exact ⟨_, write_negate_eq_ok_iff.mpr ⟨v', hoperand', rfl⟩⟩
  inScope hscoped := hsub.inScope hscoped
  writable hwritable := hsub.writable hwritable

theorem tier_level_lt_unaryLevel (op : Operator) :
    op.tier.level < unaryLevel := by
  cases op <;> decide

theorem Substitutes.left (hsub : Substitutes sound e e') {op : Operator}
    {right : Expr} :
    Substitutes sound (infixed e op right) (infixed e' op right) where
  assigned := by simp only [Expr.assigned, hsub.assigned]
  count := rfl
  spine tier := by simp only [Expr.spine, hsub.spine]
  numeral := rfl
  level _ _ := Iff.rfl
  nesting := by
    simp only [Expr.nesting, hsub.nesting, hsub.spine,
      hsub.level _ (Nat.le_of_lt (tier_level_lt_unaryLevel op))]
  writes hwrite := by
    obtain ⟨l, between, hleft, r, hright, -⟩ :=
      write_infixed_eq_ok_iff.mp hwrite
    obtain ⟨l', hleft'⟩ := hsub.writes hleft
    exact ⟨_, write_infixed_eq_ok_iff.mpr
      ⟨l', between, hleft', r, hright, rfl⟩⟩
  inScope hscoped := by
    simpa [Scoped, hsub.assigned, hscoped.2] using hsub.inScope hscoped.1
  writable hwritable := hsub.writable hwritable.1

theorem Substitutes.right (hsub : Substitutes sound e e') {left : Expr}
    {op : Operator} :
    Substitutes sound (infixed left op e) (infixed left op e') where
  assigned := by simp only [Expr.assigned, hsub.assigned]
  count := rfl
  spine _ := rfl
  numeral := rfl
  level _ _ := Iff.rfl
  nesting := by
    simp only [Expr.nesting, hsub.nesting,
      hsub.level _ (tier_level_lt_unaryLevel op)]
  writes hwrite := by
    obtain ⟨l, between, hleft, r, hright, -⟩ :=
      write_infixed_eq_ok_iff.mp hwrite
    obtain ⟨r', hright'⟩ := hsub.writes hright
    exact ⟨_, write_infixed_eq_ok_iff.mpr
      ⟨l, between, hleft, r', hright', rfl⟩⟩
  inScope hscoped := by simpa [Scoped, hscoped.1] using hsub.inScope hscoped.2
  writable hwritable := hsub.writable hwritable.2

/-! ### Lists -/

theorem Substitutes.first (hsub : Substitutes sound e e') :
    SubstitutesList sound (e :: es) (e' :: es) where
  length := rfl
  assigned := by simp only [assignedList, hsub.assigned]
  nesting := by simp only [nestingList, hsub.nesting]
  writes hwrite := by
    obtain ⟨v, between, hfirst, more, hmore, -⟩ :=
      writeList_cons_eq_ok_iff.mp hwrite
    obtain ⟨v', hfirst'⟩ := hsub.writes hfirst
    exact ⟨_, writeList_cons_eq_ok_iff.mpr
      ⟨v', between, hfirst', more, hmore, rfl⟩⟩
  inScope hscoped := by
    simpa [ScopedList, hsub.assigned, hscoped.2] using hsub.inScope hscoped.1
  writable hwritable := hsub.writable hwritable.1

theorem SubstitutesList.cons (hsub : SubstitutesList sound es es') :
    SubstitutesList sound (e :: es) (e :: es') where
  length := by simp only [List.length_cons, hsub.length]
  assigned := by simp only [assignedList, hsub.assigned]
  nesting := by simp only [nestingList, hsub.nesting]
  writes hwrite := by
    obtain ⟨v, between, hfirst, more, hmore, -⟩ :=
      writeList_cons_eq_ok_iff.mp hwrite
    obtain ⟨more', hmore'⟩ := hsub.writes hmore
    exact ⟨_, writeList_cons_eq_ok_iff.mpr
      ⟨v, between, hfirst, more', hmore', rfl⟩⟩
  inScope hscoped := by
    simpa [ScopedList, hscoped.1] using hsub.inScope hscoped.2
  writable hwritable := hsub.writable hwritable.2

theorem Substitutes.within {hole hole' : Node}
    (hsub : Substitutes sound (ofNode hole) (ofNode hole'))
    (before after : List Node) :
    SubstitutesList sound ((before ++ hole :: after).map ofNode)
      ((before ++ hole' :: after).map ofNode) := by
  induction before with
  | nil => exact hsub.first
  | cons first before ih => exact ih.cons

theorem SubstitutesList.call (hsub : SubstitutesList sound es es')
    (hname : isName name = true) :
    Substitutes sound (call name es) (call name es') where
  assigned := hsub.assigned
  count := rfl
  spine _ := rfl
  numeral := rfl
  level _ _ := Iff.rfl
  nesting := hsub.nesting
  writes hwrite := by
    obtain ⟨texts, hargs, -⟩ := write_call_eq_ok_iff.mp hwrite
    obtain ⟨texts', hargs'⟩ := hsub.writes hargs
    exact ⟨_, write_call_eq_ok_iff.mpr ⟨texts', hargs', rfl⟩⟩
  inScope hscoped := by simpa [Scoped, hname] using hsub.inScope hscoped.2
  writable hwritable := hsub.writable hwritable.2

theorem SubstitutesList.sequence (hsub : SubstitutesList sound es es') :
    Substitutes sound (sequence es) (sequence es') where
  assigned := hsub.assigned
  count := hsub.length
  spine _ := rfl
  numeral := rfl
  level _ _ := Iff.rfl
  nesting := hsub.nesting
  writes hwrite := by
    obtain ⟨texts, hitems, -⟩ := write_sequence_eq_ok_iff.mp hwrite
    obtain ⟨texts', hitems'⟩ := hsub.writes hitems
    exact ⟨_, write_sequence_eq_ok_iff.mpr ⟨texts', hitems', rfl⟩⟩
  inScope hscoped := by
    simpa [Scoped, hsub.length, hscoped.1] using hsub.inScope hscoped.2
  writable hwritable := hsub.writable hwritable

end Substitutes

/-! ### Frames -/

section Frames

variable {value : Int64} {frames : List Frame} {locals : List String}

theorem not_scoped_of_foreign {kind : String} {children : List Child}
    {span : Option Span} (hkind : kind ≠ "sym") :
    ¬ (foreign (.mk kind children span)).Scoped locals := by
  rintro ⟨name, -, other, hnode⟩
  cases hnode
  exact hkind rfl

theorem exists_inScope_of_list {before after : List Node} {hole : Node} :
    ∀ {locals : List String},
      ScopedList locals ((before ++ hole :: after).map ofNode) →
      ∃ locals', (ofNode hole).Scoped locals' := by
  induction before with
  | nil => exact fun hscoped => ⟨_, hscoped.1⟩
  | cons first before ih => exact fun hscoped => ih hscoped.2

/-- In every place where zero is in scope, any integer may stand for it. -/
theorem substitutes_plug
    (hscoped : (ofNode (plug frames (integer 0))).Scoped locals) :
    Substitutes (value ≠ Int64.minValue) (ofNode (plug frames (integer 0)))
      (ofNode (plug frames (integer value))) := by
  induction frames generalizing locals with
  | nil =>
      have hnode : ∀ value, ofNode (integer value) = int value :=
        fun value => by
        simp [integer, Node.bare, ofNode]
      simp only [plug, List.foldr_nil, hnode]
      exact substitutes_int
  | cons frame frames ih =>
      have hplug :
          ∀ hole, plug (frame :: frames) hole =
            frame.fill (plug frames hole) :=
        fun _ => rfl
      simp only [hplug] at hscoped ⊢
      cases frame with
      | assigned name =>
          cases hname : isName name with
          | false =>
              simp only [Frame.fill, Node.bare, symbol, ofNode,
                hname] at hscoped
              exact absurd hscoped (not_scoped_of_foreign (by decide))
          | true =>
              simp only [Frame.fill, Node.bare,
                ofNode_assign hname] at hscoped ⊢
              exact (ih hscoped.2).assign hname
      | argument name before after =>
          cases hname : isName name with
          | false =>
              simp only [Frame.fill, Node.bare, symbol, ofNode,
                hname] at hscoped
              exact absurd hscoped (not_scoped_of_foreign (by decide))
          | true =>
              simp only [Frame.fill, Node.bare, ofNode_call hname] at hscoped ⊢
              obtain ⟨locals', hhole⟩ := exists_inScope_of_list hscoped.2
              exact ((ih hhole).within _ _).call hname
      | statement before after =>
          simp only [Frame.fill, Node.bare, ofNode_begin] at hscoped ⊢
          obtain ⟨locals', hhole⟩ := exists_inScope_of_list hscoped.2
          exact ((ih hhole).within _ _).sequence
      | left op other =>
          simp only [Frame.fill, ofNode_binary] at hscoped ⊢
          exact (ih hscoped.1).left
      | right other op =>
          simp only [Frame.fill, ofNode_binary] at hscoped ⊢
          exact (ih hscoped.2).right
      | negated =>
          simp only [Frame.fill, Node.bare, ofNode_negate] at hscoped ⊢
          exact (ih hscoped).negate

end Frames

/-! ### Programs -/

section Programs

variable {root : Node}

theorem nestingList_programOf (root : Node) :
    nestingList (programOf (some root)) =
      if 2 ≤ (ofNode root).statementCount then (ofNode root).nesting
      else (ofNode root).nesting + 1 := by
  unfold programOf
  dsimp only
  split
  · next hroot => simp [hroot, statementCount, nesting]
  · next hroot =>
      have hcount : ¬ 2 ≤ (ofNode root).statementCount := by
        intro hcount
        cases hshape : ofNode root with
        | sequence items =>
            rw [hshape, statementCount] at hcount
            rcases items with _ | ⟨first, _ | ⟨second, more⟩⟩
            · exact absurd hcount (Nat.not_succ_le_zero 1)
            · exact absurd hcount (Nat.not_le.mpr (Nat.lt_succ_self 1))
            · exact hroot _ _ _ hshape
        | _ =>
            rw [hshape] at hcount
            exact absurd hcount (Nat.not_le.mpr (Nat.lt_succ_self 1))
      rw [if_neg hcount]
      simp [nestingList]

theorem writable_of_programOf
    (hwritable : WritableList (programOf (some root))) :
    (ofNode root).Writable := by
  rcases programOf_cases root with
    ⟨first, second, more, hshape, hprogram⟩ | hprogram
  · rw [hshape]
    rwa [hprogram] at hwritable
  · rw [hprogram] at hwritable
    exact hwritable.1

/-- The statements of a program are written exactly if its root is. -/
theorem writeList_programOf_iff {locals locals' : List String} :
    (∃ lists, writeList locals (programOf (some root)) =
      .ok (lists, locals')) ↔
      ∃ w, (ofNode root).write locals = .ok (w, locals') := by
  rcases programOf_cases root with
    ⟨first, second, more, hshape, hprogram⟩ | hprogram
  · rw [hshape, hprogram, write]
    cases writeList locals (first :: second :: more) with
    | error e => simp
    | ok written => simp [Prod.ext_iff]
  · rw [hprogram]
    simp only [writeList]
    cases (ofNode root).write locals with
    | error e => simp
    | ok written => simp [Prod.ext_iff]

end Programs

end Expr

/-! ## Reading back -/

/-- A place in which a parser may have read zero: the names around it are
names, what stands beside it has a spelling and is in scope there, a group has
another statement, and the text is within the nesting limit. -/
structure Fits (frames : List Frame) : Prop where
  inScope : (Expr.ofNode (plug frames (integer 0))).Scoped []
  spelled : (plug frames (integer 0)).atoms.findSome? spellingError? = none
  nesting : printedNesting (operandTree frames 0) ≤ maxNesting

section ReadingBack

variable {frames : List Frame} {value : Int64}

theorem sound_operandTree
    (hscoped : (Expr.ofNode (plug frames (integer value))).Scoped []) :
    Tree.Sound (operandTree frames value) :=
  Faithful.sound ⟨hscoped, rfl,
    Expr.toNode_ofNode (Expr.writable_of_scoped hscoped)⟩ (by simp)

theorem printedNesting_operandTree (hfits : Fits frames) (value : Int64) :
    printedNesting (operandTree frames value) ≤ maxNesting := by
  have hsub : Expr.Substitutes (value ≠ Int64.minValue) _ _ :=
    Expr.substitutes_plug hfits.inScope
  have hnesting := hfits.nesting
  unfold printedNesting operandTree at hnesting ⊢
  rw [Expr.nestingList_programOf] at hnesting ⊢
  rwa [hsub.count, hsub.nesting]

theorem exists_write_of_print {root : Node} {text : String}
    (hprint : print ⟨some root, none⟩ = .ok text) :
    ∃ w locals, (Expr.ofNode root).write [] = .ok (w, locals) := by
  obtain ⟨lists, locals, hwrite, -⟩ := exists_lines_of_print hprint
  obtain ⟨w, hroot⟩ := Expr.writeList_programOf_iff.mp ⟨lists, hwrite⟩
  exact ⟨w, locals, hroot⟩

theorem exists_print_of_write {root : Node} {w : Written}
    {locals : List String}
    (hwrite : (Expr.ofNode root).write [] = .ok (w, locals)) :
    ∃ text, print ⟨some root, none⟩ = .ok text := by
  obtain ⟨lists, hlists⟩ := Expr.writeList_programOf_iff.mpr ⟨w, hwrite⟩
  unfold print programLines
  rw [hlists]
  exact ⟨_, rfl⟩

/-- Every integer is printed, also the least one. -/
theorem exists_print_operandTree (hfits : Fits frames) (value : Int64) :
    ∃ text, print (operandTree frames value) = .ok text := by
  have hatoms :
      (operandTree frames 0).atoms.findSome? spellingError? = none := by
    simpa [Tree.atoms, operandTree] using hfits.spelled
  rcases (sound_operandTree hfits.inScope).print_cases with
    ⟨error, herror, -⟩ | ⟨-, lists, -, hprint⟩
  · rw [hatoms] at herror
    cases herror
  · obtain ⟨w, locals, hwrite⟩ := exists_write_of_print hprint
    obtain ⟨w', hwrite'⟩ := (Expr.substitutes_plug hfits.inScope).writes hwrite
    exact exists_print_of_write hwrite'

theorem ne_minValue_of_parse {text : String} {keep : Bool} {source : Source}
    {identification : String} {other : Tree} (hfits : Fits frames)
    (hprint : print (operandTree frames value) = .ok text)
    (htext : source.text = text.toList)
    (hparse : parse keep source identification = .ok other) :
    value ≠ Int64.minValue := by
  obtain ⟨lists, locals, hwrite, hlines⟩ := exists_lines_of_print hprint
  obtain ⟨lexed, -, hlex, -, -⟩ := parse_eq_ok hparse
  rw [htext, hlines] at hlex
  have hwritable := writableList_of_lex (named_programOf _) hwrite hlex
  exact (Expr.substitutes_plug hfits.inScope).writable
    (Expr.writable_of_programOf hwritable)

end ReadingBack

/-- Wherever an integer literal stands, it is printed, and the text is read as
the same tree, in every encoding and with or without comments, unless the
integer is the least one.  No source with the text of that one is read. -/
theorem integer_readsBack {frames : List Frame} (hfits : Fits frames)
    (value : Int64) :
    ∃ text, print (operandTree frames value) = .ok text ∧
      ∀ (keep : Bool) (source : Source) (identification : String),
        source.text = text.toList →
        (value ≠ Int64.minValue →
          ∃ other, parse keep source identification = .ok other ∧
          (operandTree frames value).same other = true) ∧
        (value = Int64.minValue →
          ∃ e, parse keep source identification = .error e) := by
  obtain ⟨text, hprint⟩ := exists_print_operandTree hfits value
  refine ⟨text, hprint, fun keep source identification htext =>
    ⟨fun hvalue => ?_, fun hvalue => ?_⟩⟩
  · have hscoped :=
      ((Expr.substitutes_plug hfits.inScope).inScope hfits.inScope).mpr hvalue
    obtain ⟨hread, -⟩ :=
      (sound_operandTree hscoped).reread hprint htext keep identification
    obtain ⟨other, hother, hroot, -⟩ :=
      hread (printedNesting_operandTree hfits value)
    refine ⟨other, hother, ?_⟩
    unfold Tree.same
    rw [hroot]
    rfl
  · cases hparse : parse keep source identification with
    | error e => exact ⟨e, rfl⟩
    | ok other =>
        exact absurd hvalue (ne_minValue_of_parse hfits hprint htext hparse)

/-- The operand of a minus in the last statement of a group, which is an
argument on the left of an assigned difference. -/
def nestedFrames : List Frame :=
  [.assigned "a", .left .minus (integer 2), .argument "f" [] [integer 1],
    .statement [.bare "nil" []] [], .negated]

theorem fits_nestedFrames : Fits nestedFrames where
  inScope := by
    have hshape : Expr.ofNode (plug nestedFrames (integer 0)) =
        .assign "a"
          (.infixed (.call "f" [.sequence [.nil, .negate (.int 0)], .int 1])
            .minus (.int 2)) := by
      simp [plug, nestedFrames, Frame.fill, integer, Node.bare, symbol, binary,
        Expr.ofNode, Expr.ofChildren, Operator.ofSymbol?_symbol,
        show isName "a" = true by decide,
        show isName "f" = true by decide]
    rw [hshape]
    simp only [Expr.Scoped, Expr.ScopedList]
    decide
  spelled := by decide +kernel
  nesting := by decide +kernel

theorem integer_readsBack_nestedFrames :
    (∃ text, print (operandTree nestedFrames Int64.minValue) = .ok text ∧
      ∃ e, parse true (.ofText text.toList) "input" = .error e) ∧
    ∃ text, print (operandTree nestedFrames (-7)) = .ok text ∧
      ∃ other, parse true (.ofText text.toList) "input" = .ok other ∧
        (operandTree nestedFrames (-7)).same other = true := by
  have htext :
      ∀ text : String, (Source.ofText text.toList).text = text.toList :=
    fun text => Utf8.decodeLossy_encode text.toList
  obtain ⟨text, hprint, hread⟩ :=
    integer_readsBack fits_nestedFrames Int64.minValue
  obtain ⟨text', hprint', hread'⟩ := integer_readsBack fits_nestedFrames (-7)
  exact ⟨⟨text, hprint, (hread true _ "input" (htext text)).2 rfl⟩,
    text', hprint', (hread' true _ "input" (htext text')).1 (by decide)⟩

end Reparse.Toy
