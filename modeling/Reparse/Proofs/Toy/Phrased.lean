import Reparse.Proofs.Toy.Phrases

/-!
# What is derived is a phrase

The tokens that a reader takes are a phrase, and the node it returns is that of
the phrase but for its places.  The names a reader has met are those assigned
to in the tokens in front of it, whatever these are.
-/

namespace Reparse.Toy

/-! ## Names assigned -/

/-- The names are those assigned to in the tokens. -/
def Tracks (before : List Token) (locals : List String) : Prop :=
  ∀ name, name ∈ locals ↔ Assigned name before

section Names

variable {before ts : List Token} {locals : List String}

theorem assigned_concat_iff {t : Token} {name : String} :
    Assigned name (before ++ [t]) ↔
      (t.kind = .assign ∧ before.getLast?.map (·.kind) = some (.ident name)) ∨
        Assigned name before := by
  have hends :
      [TokenKind.ident name, .assign] <:+ (before ++ [t]).map (·.kind) ↔
      t.kind = .assign ∧ before.getLast?.map (·.kind) =
        some (.ident name) := by
    rw [← List.reverse_prefix, List.getLast?_eq_head?_reverse,
      ← List.head?_map]
    simp only [List.reverse_cons, List.reverse_nil, List.nil_append,
      List.cons_append, List.map_append, List.map_cons, List.map_nil,
      List.reverse_append, List.cons_prefix_cons, List.map_reverse,
      eq_comm (a := TokenKind.assign)]
    refine and_congr_right fun _ => ?_
    cases (before.map (·.kind)).reverse <;> simp [eq_comm]
  unfold Assigned
  rw [List.map_append, List.map_singleton, List.infix_concat_iff]
  rw [List.map_append, List.map_singleton] at hends
  rw [hends]

theorem tracks_nil : Tracks [] [] := by
  intro name
  simp [Assigned]

theorem Tracks.append (htracks : Tracks before locals)
    (hts : ∀ t ∈ ts, t.kind ≠ .assign) :
    Tracks (before ++ ts) locals := by
  induction ts generalizing before with
  | nil => simpa using htracks
  | cons t ts ih =>
      obtain ⟨ht, hmore⟩ := List.forall_mem_cons.mp hts
      have hone : Tracks (before ++ [t]) locals := by
        intro name
        rw [htracks, assigned_concat_iff]
        simp [ht]
      simpa using ih hone hmore

theorem Tracks.token {t : Token} (htracks : Tracks before locals)
    (hkind : t.kind ≠ .assign) :
    Tracks (before ++ [t]) locals :=
  htracks.append (List.forall_mem_singleton.mpr hkind)

theorem Tracks.assign {t mark : Token} {name : String}
    (htracks : Tracks before locals) (hname : t.kind = .ident name)
    (hmark : mark.kind = .assign) :
    Tracks (before ++ [t, mark]) (name :: locals) := by
  have ht : Tracks (before ++ [t]) locals := htracks.token (by simp [hname])
  intro other
  have hsplit : before ++ [t, mark] = (before ++ [t]) ++ [mark] := by simp
  rw [hsplit, assigned_concat_iff, List.mem_cons, ht]
  simp [hmark, hname, eq_comm]

end Names

/-! ## Marks and gaps -/

theorem AllSeparators.ne_assign {ts : List Token} (hts : AllSeparators ts) :
    ∀ t ∈ ts, t.kind ≠ .assign := by
  intro t ht
  simp [hts t ht]

theorem Bracket.IsGap.ne_assign {bracket : Bracket} {gap : List Token}
    (hgap : bracket.IsGap gap) : ∀ t ∈ gap, t.kind ≠ .assign := by
  cases bracket with
  | group => exact hgap.2.ne_assign
  | call =>
      obtain ⟨comma, rfl, hcomma⟩ := hgap
      simp [hcomma]

theorem exists_separators (ts : List Token) :
    ∃ separators, AllSeparators separators ∧
      ts = separators ++ (skipSeparators ts).val := by
  refine ⟨ts.takeWhile isSeparator, ?_, List.takeWhile_append_dropWhile.symm⟩
  intro t ht
  have hseparator := List.all_eq_true.mp List.all_takeWhile t ht
  simpa [isSeparator] using hseparator

theorem skipSeparators_append {separators ts : List Token}
    (hseparators : AllSeparators separators)
    (hts : peek ts ≠ some .separator) :
    (skipSeparators (separators ++ ts)).val = ts := by
  have hall : ∀ t ∈ separators, isSeparator t = true := by
    intro t ht
    simp [isSeparator, hseparators t ht]
  have hstop : ts.dropWhile isSeparator = ts := skipSeparators_of_peek_ne hts
  change (separators ++ ts).dropWhile isSeparator = ts
  rw [List.dropWhile_append_of_pos hall, hstop]

theorem Bracket.exists_gap (bracket : Bracket) {t : Token}
    (ht : t.kind = bracket.mark) (ts : List Token) :
    ∃ gap, bracket.IsGap gap ∧ t :: ts = gap ++ bracket.skip ts := by
  cases bracket with
  | group =>
      obtain ⟨separators, hseparators, hts⟩ := exists_separators ts
      refine ⟨t :: separators, ⟨by simp, ?_⟩, ?_⟩
      · exact List.forall_mem_cons.mpr ⟨ht, hseparators⟩
      · rw [List.cons_append]
        exact congrArg (t :: ·) hts
  | call => exact ⟨[t], ⟨t, rfl, ht⟩, rfl⟩

theorem Bracket.IsGap.shape {bracket : Bracket} {gap ts : List Token}
    (hgap : bracket.IsGap gap) (hts : peek ts ≠ some .separator) :
    ∃ t more, gap = t :: more ∧ t.kind = bracket.mark ∧
      bracket.skip (more ++ ts) = ts := by
  cases bracket with
  | group =>
      obtain ⟨hne, hseparators⟩ := hgap
      obtain ⟨t, more, rfl⟩ := List.exists_cons_of_ne_nil hne
      obtain ⟨ht, hmore⟩ := List.forall_mem_cons.mp hseparators
      exact ⟨t, more, rfl, ht, skipSeparators_append hmore hts⟩
  | call =>
      obtain ⟨comma, rfl, hcomma⟩ := hgap
      exact ⟨comma, [], rfl, hcomma, rfl⟩

/-! ## What is derived is a phrase -/

section Sound

variable {identification : String} {ctx : Context}

/-- The tokens begin with the part, behind any tokens in which these names were
assigned. -/
def Phrased (identification : String) (part : Part) (locals : List String)
    (ts : List Token) (result : part.Result) (locals' : List String)
    (rest : List Token) : Prop :=
  ∃ front, ts = front ++ rest ∧ ∀ before, Tracks before locals →
    Phrase identification part before front result ∧
      Tracks (before ++ front) locals'

/-- A derivation of the form reads a phrase; that of a tail makes a longer
chain of the one in front. -/
def Form.Phrased (identification : String) :
    (form : Form) → List String → List Token → form.Result → List String →
      List Token → Prop
  | .statement, locals, ts, node, locals', rest =>
    Toy.Phrased identification .statement locals ts node.withoutSpans
      locals' rest
  | .chain tier, locals, ts, node, locals', rest =>
    Toy.Phrased identification (.chain tier) locals ts node.withoutSpans
      locals' rest
  | .operand tier, locals, ts, node, locals', rest =>
    Toy.Phrased identification (.operand tier) locals ts node.withoutSpans
      locals' rest
  | .tail tier left, locals, ts, node, locals', rest =>
    ∃ front, ts = front ++ rest ∧ ∀ before chain,
      Phrase identification (.chain tier) before chain left.withoutSpans →
      Tracks (before ++ chain) locals →
        Phrase identification (.chain tier) before (chain ++ front)
          node.withoutSpans ∧
          Tracks (before ++ (chain ++ front)) locals'
  | .unary, locals, ts, node, locals', rest =>
    Toy.Phrased identification .unary locals ts node.withoutSpans locals' rest
  | .primary, locals, ts, node, locals', rest =>
    Toy.Phrased identification .primary locals ts node.withoutSpans
      locals' rest
  | .items bracket, locals, ts, out, locals', rest =>
    ∃ close : Token, close.kind = .rightParen ∧
      Toy.Phrased identification (.items bracket) locals ts
        (out.1.map Node.withoutSpans) locals' (close :: rest)

/-- Tokens phrased as a part that makes up a larger one are phrased as the
larger one. -/
theorem Phrased.lift {part larger : Part} {locals locals' : List String}
    {ts rest : List Token} {result : part.Result} {result' : larger.Result}
    (hlift : ∀ {before front}, Phrase identification part before front result →
      Phrase identification larger before front result')
    (hphrased : Phrased identification part locals ts result locals' rest) :
    Phrased identification larger locals ts result' locals' rest := by
  obtain ⟨front, hts, hphrase⟩ := hphrased
  refine ⟨front, hts, fun before htracks => ?_⟩
  obtain ⟨hpart, hafter⟩ := hphrase before htracks
  exact ⟨hlift hpart, hafter⟩

/-- A phrase of one token. -/
theorem phrased_token {locals : List String} {t : Token} {node : Node}
    {rest : List Token} (hbegins : t.kind.begins = true)
    (hphrase : ∀ before, Tracks before locals →
      Phrase identification .primary before [t] node) :
    Phrased identification .primary locals (t :: rest) node locals rest := by
  refine ⟨[t], rfl, fun before htracks => ⟨hphrase before htracks, ?_⟩⟩
  exact htracks.token (TokenKind.ne_of_begins hbegins rfl)

theorem phrased_name {locals : List String} {t : Token} {name : String}
    {rest : List Token} (hname : t.kind = .ident name) :
    Phrased identification .primary locals (t :: rest)
      (nameNode locals name t.span).withoutSpans locals rest := by
  apply phrased_token
  · rw [hname]
    rfl
  · intro before htracks
    unfold nameNode
    split
    · next hlocal => exact .assignedName hname ((htracks name).mp hlocal)
    · next hlocal =>
      exact .freeName hname fun hassigned =>
        hlocal ((htracks name).mpr hassigned)

theorem Derives.phrased {form : Form} {locals locals' : List String}
    {ts rest : List Token} {result : form.Result} {cost : Nat}
    (hderives : Derives ctx form locals ts result locals' rest cost) :
    form.Phrased ctx.identification locals ts result locals' rest := by
  induction hderives with
  | @assignment t mark _ _ _ _ _ _ _ hname hmark _ ih =>
      obtain ⟨front, rfl, hphrase⟩ := ih
      refine ⟨t :: mark :: front, rfl, fun before htracks => ?_⟩
      obtain ⟨hvalue, hafter⟩ := hphrase _ (htracks.assign hname hmark)
      exact ⟨.assignment hname hmark hvalue, by simpa using hafter⟩
  | expression _ _ ih => exact Phrased.lift .expression ih
  | chain _ _ ihLeft ihTail =>
      obtain ⟨front, rfl, hleft⟩ := ihLeft
      obtain ⟨more, rfl, htail⟩ := ihTail
      refine ⟨front ++ more, by simp, fun before htracks => ?_⟩
      obtain ⟨hoperand, hafter⟩ := hleft before htracks
      exact htail before front (.single hoperand) hafter
  | operandSum _ ih => exact Phrased.lift .operandSum ih
  | operandProduct _ ih => exact Phrased.lift .operandProduct ih
  | tailEnd _ =>
      refine ⟨[], rfl, fun before chain hchain htracks => ?_⟩
      rw [List.append_nil]
      exact ⟨hchain, htracks⟩
  | @tailOperator _ _ _ _ t _ _ _ _ _ _ _ _ _ hop htier _ _ ihRight ihTail =>
      obtain ⟨front, rfl, hright⟩ := ihRight
      obtain ⟨more, rfl, htail⟩ := ihTail
      refine ⟨t :: (front ++ more), by simp,
        fun before chain hchain htracks => ?_⟩
      obtain ⟨hoperand, hafter⟩ :=
        hright _ (htracks.token (Operator.ne_assign_of_ofToken? hop))
      have hlonger :=
        htail before (chain ++ t :: front) (.infixed hop htier hchain hoperand)
          (by simpa using hafter)
      simpa using hlonger
  | @negativeLiteral minus t _ _ _ hminus hnode =>
      refine ⟨[minus, t], rfl, fun before htracks => ?_⟩
      unfold negated? at hnode
      split at hnode
      · next hint =>
          cases hnode
          exact ⟨.negativeInt hminus hint,
            htracks.append (by simp [hminus, hint])⟩
      · next hfloat =>
          cases hnode
          exact ⟨.negativeFloat hminus hfloat,
            htracks.append (by simp [hminus, hfloat])⟩
      · cases hnode
  | @negation minus _ _ _ _ _ _ hminus hoperand _ ih =>
      obtain ⟨front, rfl, hphrase⟩ := ih
      refine ⟨minus :: front, rfl, fun before htracks => ?_⟩
      obtain ⟨hunary, hafter⟩ :=
        hphrase _ (htracks.token (t := minus) (by simp [hminus]))
      refine ⟨.negation hminus ?_ hunary, by simpa using hafter⟩
      obtain ⟨t, more, rfl, -⟩ := hunary.exists_front.resolve_left id
      exact hoperand
  | unsigned _ _ ih => exact Phrased.lift .unsigned ih
  | literal hnode =>
      have hliteral := isLiteral_iff.mpr ⟨_, hnode, rfl⟩
      exact phrased_token hliteral.begins fun _ _ => .literal hliteral
  | name hname _ => exact phrased_name hname
  | @call t paren _ _ _ _ _ _ _ _ hname hparen _ ih =>
      obtain ⟨close, hclose, front, rfl, hphrase⟩ := ih
      refine ⟨t :: paren :: (front ++ [close]), by simp,
        fun before htracks => ?_⟩
      have hopen : Tracks (before ++ [t, paren]) _ :=
        htracks.append (by simp [hname, hparen])
      obtain ⟨hitems, hafter⟩ := hphrase _ hopen
      have hcall := Phrase.call hname hparen hclose hitems
      rw [← Expr.withoutSpansList_nodes] at hcall
      have hend := hafter.token (t := close) (by simp [hclose])
      exact ⟨hcall, by simpa using hend⟩
  | @group t locals _ ts _ _ _ _ hparen _ ih =>
      obtain ⟨close, hclose, front, hfront, hphrase⟩ := ih
      obtain ⟨separators, hseparators, hts⟩ := exists_separators ts
      refine ⟨t :: (separators ++ front ++ [close]), ?_,
        fun before htracks => ?_⟩
      · rw [hts, hfront]
        simp
      · have hopen : Tracks (before ++ t :: separators) locals := by
          refine
            htracks.append (List.forall_mem_cons.mpr ⟨by simp [hparen], ?_⟩)
          exact hseparators.ne_assign
        obtain ⟨hitems, hafter⟩ := hphrase _ hopen
        have hgroup := Phrase.group hparen hseparators hclose hitems
        rw [sequence?_getD] at hgroup
        have hend := hafter.token (t := close) (by simp [hclose])
        exact ⟨hgroup, by simpa using hend⟩
  | @itemsEnd _ t _ _ hclose =>
      refine ⟨t, hclose, [], rfl, ?_⟩
      intro before htracks
      exact ⟨.itemsNone, by simpa using htracks⟩
  | @itemsLast _ t _ _ _ _ _ _ _ hclose _ ih =>
      exact ⟨t, hclose, Phrased.lift .itemsLast ih⟩
  | @itemsMore bracket t _ _ _ _ rest _ _ _ _ _ _ _ hmark _ _ ihItem ihItems =>
      obtain ⟨front, rfl, hitem⟩ := ihItem
      obtain ⟨close, hclose, more, hmore, hitems⟩ := ihItems
      obtain ⟨gap, hgap, hsplit⟩ := bracket.exists_gap hmark rest
      refine ⟨close, hclose, front ++ gap ++ more, ?_,
        fun before htracks => ?_⟩
      · rw [hsplit, hmore]
        simp
      · obtain ⟨hfirst, hafter⟩ := hitem before htracks
        obtain ⟨hothers, hend⟩ := hitems _ (hafter.append hgap.ne_assign)
        exact ⟨.itemsMore hgap hfirst hothers, by simpa using hend⟩

theorem DerivesProgram.phrase {locals locals' : List String} {ts : List Token}
    {nodes : List Node} {cost : Nat}
    (hderives : DerivesProgram ctx locals ts nodes locals' cost) :
    ∀ before, Tracks before locals →
      Phrase ctx.identification (.items .group) before ts
        (nodes.map Node.withoutSpans) := by
  induction hderives with
  | nil => exact fun _ _ => .itemsNone
  | last hstatement =>
      intro before htracks
      obtain ⟨front, rfl, hphrase⟩ := hstatement.phrased
      rw [List.append_nil]
      exact .itemsLast (hphrase before htracks).1
  | @more t _ _ _ _ rest _ _ _ _ hmark hstatement _ ih =>
      intro before htracks
      obtain ⟨front, rfl, hphrase⟩ := hstatement.phrased
      obtain ⟨gap, hgap, hsplit⟩ := Bracket.group.exists_gap hmark rest
      obtain ⟨hfirst, hafter⟩ := hphrase before htracks
      rw [hsplit, ← List.append_assoc]
      exact .itemsMore hgap hfirst (ih _ (hafter.append hgap.ne_assign))

end Sound

end Reparse.Toy
