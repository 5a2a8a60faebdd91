import Reparse.Proofs.Toy.Parsed
import Reparse.Proofs.Toy.Phrased

/-!
# The parser accepts its grammar

Every phrase is derived in front of tokens that do not continue it.  A chain is
a phrase from its left end on, and a reader goes through it from there, so for
chains the statement is about what may still follow.  With the converse, and
since readers are functions, the parser accepts exactly the programs of the
grammar that open no more levels than the limit allows, and no tokens are two
programs.
-/

namespace Reparse.Toy

open Text

/-! ## Phrases are derived -/

section Complete

variable {ctx : Context} {locals locals' : List String} {ts : List Token}
variable {target : Node}

/-- In front of tokens that do not continue at the level, the tokens read as
the node but for its places. -/
def Takes (reading : Reading) (level : Nat) (locals : List String)
    (ts : List Token) (target : Node) (locals' : List String) : Prop :=
  ∀ rest, EndsAt level rest →
    ∃ (node : Node) (cost : Nat), node.withoutSpans = target ∧
    reading locals (ts ++ rest) node locals' rest cost

/-- What reads on from the node of the tokens reads a chain. -/
def TakesChain (ctx : Context) (tier : Tier) (locals : List String)
    (ts : List Token) (target : Node) (locals' : List String) : Prop :=
  ∀ rest, EndsAt (tier.level + 1) rest →
    ∃ node : Node, node.withoutSpans = target ∧
    ∀ {result locals'' rest' cost},
      Derives ctx (.tail tier node) locals' rest result locals'' rest' cost →
      ∃ cost', Derives ctx (.chain tier) locals (ts ++ rest) result locals''
        rest' cost'

/-- The tokens read as the items of a list that is closed after them. -/
def TakesItems (ctx : Context) (bracket : Bracket) (locals : List String)
    (ts : List Token) (targets : List Node) (locals' : List String) : Prop :=
  ∀ (close : Token) rest, close.kind = .rightParen →
    ∃ (nodes : List Node) (cost : Nat), nodes.map Node.withoutSpans = targets ∧
      Derives ctx (.items bracket) locals (ts ++ close :: rest)
        (nodes, close.stop) locals' rest
        cost

/-- What is read as a part that makes up a larger one is read as the larger
one. -/
theorem Takes.lift {reading larger : Reading} {level higher : Nat}
    (hlift : ∀ {rest node cost}, EndsAt level rest →
      reading locals (ts ++ rest) node locals' rest cost →
      ∃ cost', larger locals (ts ++ rest) node locals' rest cost')
    (htakes : Takes reading higher locals ts target locals')
    (hle : level ≤ higher) :
    Takes larger level locals ts target locals' := by
  intro rest hends
  obtain ⟨node, cost, hnode, hderives⟩ := htakes rest (hends.mono hle)
  obtain ⟨cost', hlarger⟩ := hlift hends hderives
  exact ⟨node, cost', hnode, hlarger⟩

theorem Takes.chain {tier : Tier}
    (htakes : Takes (Derives ctx (.operand tier)) (tier.level + 1) locals ts
      target locals') :
    TakesChain ctx tier locals ts target locals' := by
  intro rest hends
  obtain ⟨node, cost, hnode, hderives⟩ := htakes rest hends
  exact ⟨node, hnode, fun htail => ⟨_, .chain hderives htail⟩⟩

theorem TakesChain.close {tier : Tier}
    (htakes : TakesChain ctx tier locals ts target locals') :
    Takes (Derives ctx (.chain tier)) tier.level locals ts target locals' := by
  intro rest hends
  obtain ⟨node, hnode, hchain⟩ := htakes rest (hends.mono (Nat.le_succ _))
  obtain ⟨cost, hderives⟩ := hchain (.tailEnd hends.not_continues)
  exact ⟨node, cost, hnode, hderives⟩

theorem binding_of_ofToken? {kind : TokenKind} {op : Operator}
    (hop : Operator.ofToken? kind = some op) :
    kind.binding = op.tier.level := by
  cases kind <;> cases hop <;> rfl

theorem TakesChain.infixed {t : Token} {op : Operator} {tier : Tier}
    {ts' : List Token} {target' : Node} {locals'' : List String}
    (hop : Operator.ofToken? t.kind = some op) (htier : op.tier = tier)
    (hleft : TakesChain ctx tier locals ts target locals')
    (hright : Takes (Derives ctx (.operand tier)) (tier.level + 1) locals' ts'
      target' locals'') :
    TakesChain ctx tier locals (ts ++ t :: ts')
      (.bare "send" [.node target, symbol op.symbol, .node target'])
        locals'' := by
  intro rest hends
  have hfollow : EndsAt (tier.level + 1) (t :: (ts' ++ rest)) := by
    refine .of_kind rfl ?_
    rw [binding_of_ofToken? hop, htier]
    exact Nat.lt_succ_self _
  obtain ⟨left, rfl, hchain⟩ := hleft _ hfollow
  obtain ⟨right, cost, rfl, hderives⟩ := hright rest hends
  refine ⟨binary left op right, rfl, fun htail => ?_⟩
  obtain ⟨cost', hread⟩ := hchain (.tailOperator hop htier hderives htail)
  exact ⟨cost', by simpa using hread⟩

/-- What a phrase comes to for a reader. -/
def Part.Taken (ctx : Context) :
    (part : Part) → List String → List Token → part.Result → List String → Prop
  | .statement => Takes (Derives ctx .statement) 1
  | .chain tier => TakesChain ctx tier
  | .operand tier => Takes (Derives ctx (.operand tier)) (tier.level + 1)
  | .unary => Takes (Derives ctx .unary) unaryLevel
  | .primary => Takes (Derives ctx .primary) atomLevel
  | .items bracket => TakesItems ctx bracket

end Complete

/-- A phrase is derived, whatever does not continue it. -/
theorem Phrase.taken {ctx : Context} {part : Part} {before ts : List Token}
    {result : part.Result}
    (hphrase : Phrase ctx.identification part before ts result) :
    ∀ {locals : List String}, Tracks before locals →
      ∃ locals', Tracks (before ++ ts) locals' ∧
      part.Taken ctx locals ts result locals' := by
  induction hphrase with
  | @assignment t mark _ _ _ _ hname hmark _ ih =>
      intro locals htracks
      obtain ⟨locals', hafter, htakes⟩ := ih (htracks.assign hname hmark)
      refine ⟨locals', by simpa using hafter, fun rest hends => ?_⟩
      obtain ⟨node, cost, rfl, hderives⟩ := htakes rest hends
      exact ⟨_, _, rfl, .assignment hname hmark hderives⟩
  | expression hsum ih =>
      intro locals htracks
      obtain ⟨locals', hafter, hchain⟩ := ih htracks
      refine ⟨locals', hafter, Takes.lift ?_ hchain.close (Nat.le_refl _)⟩
      intro rest node cost hends hderives
      have hplain := hsum.not_isAssignment trivial rest
        (hends.peek_ne (by simp [TokenKind.binding]))
      exact ⟨_, .expression hplain hderives⟩
  | single _ ih =>
      intro locals htracks
      obtain ⟨locals', hafter, htakes⟩ := ih htracks
      exact ⟨locals', hafter, Takes.chain htakes⟩
  | @infixed t _ _ _ _ _ _ _ hop htier _ _ ihLeft ihRight =>
      intro locals htracks
      obtain ⟨locals', hafter, hleft⟩ := ihLeft htracks
      have hne := Operator.ne_assign_of_ofToken? hop
      obtain ⟨locals'', hend, hright⟩ := ihRight (hafter.token hne)
      exact ⟨locals'', by simpa using hend,
        TakesChain.infixed hop htier hleft hright⟩
  | operandSum _ ih =>
      intro locals htracks
      obtain ⟨locals', hafter, hchain⟩ := ih htracks
      refine ⟨locals', hafter, Takes.lift ?_ hchain.close (Nat.le_refl _)⟩
      exact fun _ hderives => ⟨_, .operandSum hderives⟩
  | operandProduct _ ih =>
      intro locals htracks
      obtain ⟨locals', hafter, htakes⟩ := ih htracks
      refine ⟨locals', hafter, Takes.lift ?_ htakes (Nat.le_refl _)⟩
      exact fun _ hderives => ⟨_, .operandProduct hderives⟩
  | @negativeInt minus t value _ hminus hint =>
      intro locals htracks
      refine ⟨locals, htracks.append (by simp [hminus, hint]),
        fun rest _ => ?_⟩
      have hnode : negated? minus t =
          some (.mk "int" [.atom (.int (-value))]
            (some (minus.spanTo t.stop))) := by
        simp only [negated?, hint]
      exact ⟨_, _, rfl, .negativeLiteral hminus hnode⟩
  | @negativeFloat minus t value _ hminus hfloat =>
      intro locals htracks
      refine ⟨locals, htracks.append (by simp [hminus, hfloat]),
        fun rest _ => ?_⟩
      have hnode : negated? minus t =
          some (.mk "float" [.atom (.float value.neg)]
            (some (minus.spanTo t.stop))) := by
        simp only [negated?, hfloat]
      exact ⟨_, _, rfl, .negativeLiteral hminus hnode⟩
  | @negation minus _ _ _ hminus hoperand hunary ih =>
      intro locals htracks
      obtain ⟨locals', hafter, htakes⟩ :=
        ih (htracks.token (t := minus) (by simp [hminus]))
      refine ⟨locals', by simpa using hafter, fun rest hends => ?_⟩
      obtain ⟨node, cost, rfl, hderives⟩ := htakes rest hends
      obtain ⟨t, more, rfl, -⟩ := hunary.exists_front.resolve_left id
      exact ⟨_, _, rfl, .negation hminus hoperand hderives⟩
  | unsigned hprimary ih =>
      intro locals htracks
      obtain ⟨locals', hafter, htakes⟩ := ih htracks
      refine ⟨locals', hafter, Takes.lift ?_ htakes (by decide)⟩
      exact fun _ hderives => ⟨_, .unsigned hprimary.peek_primary_ne hderives⟩
  | @literal t _ _ hliteral =>
      intro locals htracks
      have hne : t.kind ≠ .assign := TokenKind.ne_of_begins hliteral.begins rfl
      obtain ⟨node, hnode, rfl⟩ := isLiteral_iff.mp hliteral
      exact ⟨locals, htracks.token hne, fun rest _ =>
        ⟨node, _, rfl, .literal hnode⟩⟩
  | @assignedName t name _ hname hassigned =>
      intro locals htracks
      refine ⟨locals, htracks.token (by simp [hname]), fun rest hends => ?_⟩
      refine ⟨nameNode locals name t.span, _, ?_,
        .name hname (hends.peek_ne (by decide))⟩
      rw [nameNode, if_pos ((htracks name).mpr hassigned)]
      rfl
  | @freeName t name _ hname hfree =>
      intro locals htracks
      refine ⟨locals, htracks.token (by simp [hname]), fun rest hends => ?_⟩
      refine ⟨nameNode locals name t.span, _, ?_,
        .name hname (hends.peek_ne (by decide))⟩
      rw [nameNode, if_neg fun hlocal => hfree ((htracks name).mp hlocal)]
      rfl
  | @call t paren close _ before _ _ hname hparen hclose _ ih =>
      intro locals htracks
      have hopen : Tracks (before ++ [t, paren]) locals :=
        htracks.append (by simp [hname, hparen])
      obtain ⟨locals', hafter, htakes⟩ := ih hopen
      have hend := hafter.token (t := close) (by simp [hclose])
      refine ⟨locals', by simpa using hend, fun rest _ => ?_⟩
      obtain ⟨nodes, cost, rfl, hderives⟩ := htakes close rest hclose
      refine ⟨_, _, ?_, by simpa using Derives.call hname hparen hderives⟩
      simp only [Node.withoutSpans, Child.withoutSpansList, Child.withoutSpans,
        Expr.withoutSpansList_nodes]
      rfl
  | @group paren close before separators ts _ hparen hseparators hclose
        hitems ih =>
      intro locals htracks
      have hopen : Tracks (before ++ paren :: separators) locals :=
        htracks.append
          (List.forall_mem_cons.mpr ⟨by simp [hparen], hseparators.ne_assign⟩)
      obtain ⟨locals', hafter, htakes⟩ := ih hopen
      have hend := hafter.token (t := close) (by simp [hclose])
      refine ⟨locals', by simpa using hend, fun rest _ => ?_⟩
      obtain ⟨nodes, cost, rfl, hderives⟩ := htakes close rest hclose
      have hpeek : peek (ts ++ close :: rest) ≠ some .separator :=
        hitems.peek_items_ne (by simp [peek, hclose])
      rw [← skipSeparators_append hseparators hpeek] at hderives
      refine ⟨_, _, (sequence?_getD nodes _).symm,
        by simpa using Derives.group hparen hderives⟩
  | itemsNone =>
      intro locals htracks
      refine ⟨locals, by simpa using htracks, fun close rest hclose => ?_⟩
      exact ⟨[], _, rfl, .itemsEnd hclose⟩
  | itemsLast hitem ih =>
      intro locals htracks
      obtain ⟨locals', hafter, htakes⟩ := ih htracks
      refine ⟨locals', hafter, fun close rest hclose => ?_⟩
      obtain ⟨node, cost, rfl, hderives⟩ := htakes (close :: rest)
        (.of_kind hclose Nat.zero_lt_one)
      exact ⟨[node], _, rfl, .itemsLast (hitem.peek_ne id rfl) hclose hderives⟩
  | @itemsMore bracket before ts gap ts' _ _ hgap hitem hitems ihItem
        ihItems =>
      intro locals htracks
      obtain ⟨locals', hafter, hfirst⟩ := ihItem htracks
      obtain ⟨locals'', hend, hothers⟩ :=
        ihItems (hafter.append hgap.ne_assign)
      refine ⟨locals'', by simpa using hend, fun close rest hclose => ?_⟩
      have hpeek : peek (ts' ++ close :: rest) ≠ some .separator :=
        hitems.peek_items_ne (by simp [peek, hclose])
      obtain ⟨t, more, rfl, hmark, hskip⟩ := hgap.shape hpeek
      obtain ⟨nodes, cost, rfl, hderives⟩ := hothers close rest hclose
      rw [← hskip] at hderives
      obtain ⟨node, cost', rfl, hstatement⟩ :=
        hfirst (t :: (more ++ (ts' ++ close :: rest)))
          (.of_kind hmark (by cases bracket <;> decide))
      refine ⟨node :: nodes, max cost' cost, rfl, ?_⟩
      simpa using Derives.itemsMore (hitem.peek_ne id rfl) hmark
        hstatement hderives

/-- The statements of a program are derived. -/
theorem Phrase.exists_derivesProgram {ctx : Context} {before ts : List Token}
    {nodes : List Node} {locals : List String}
    (hphrase : Phrase ctx.identification (.items .group) before ts nodes)
    (htracks : Tracks before locals) :
    ∃ (found : List Node) (locals' : List String) (cost : Nat),
      found.map Node.withoutSpans = nodes ∧
        DerivesProgram ctx locals ts found locals' cost := by
  cases hphrase with
  | itemsNone => exact ⟨[], _, _, rfl, .nil⟩
  | itemsLast hitem =>
      obtain ⟨locals', -, htakes⟩ := hitem.taken htracks
      obtain ⟨node, cost, rfl, hderives⟩ := htakes [] (by simp [EndsAt, peek])
      rw [List.append_nil] at hderives
      exact ⟨[node], _, _, rfl, .last hderives⟩
  | @itemsMore _ _ front gap ts' _ _ hgap hitem hitems =>
      obtain ⟨locals', hafter, htakes⟩ := hitem.taken htracks
      have hpeek : peek (ts' ++ []) ≠ some .separator :=
        hitems.peek_items_ne (by simp [peek])
      rw [List.append_nil] at hpeek
      obtain ⟨t, more, hsplit, hmark, hskip⟩ := hgap.shape hpeek
      have hshorter : ts'.length < (front ++ gap ++ ts').length := by
        rw [hsplit]
        simp only [List.length_append, List.length_cons]
        omega
      obtain ⟨nodes, locals'', cost, rfl, hothers⟩ :=
        hitems.exists_derivesProgram (hafter.append hgap.ne_assign)
      obtain ⟨node, cost', rfl, hstatement⟩ := htakes (gap ++ ts') (by
        rw [hsplit]
        exact .of_kind hmark (by decide))
      refine ⟨node :: nodes, locals'', max cost' cost, rfl, ?_⟩
      rw [hsplit] at hstatement ⊢
      change (skipSeparators (more ++ ts')).val = ts' at hskip
      rw [← hskip] at hothers
      simpa using DerivesProgram.more hmark hstatement hothers
termination_by ts.length

/-! ## Derivations are unique -/

theorem Derives.unique {ctx : Context} {form : Form}
    {locals locals' locals'' : List String} {ts rest rest' : List Token}
    {result result' : form.Result} {cost cost' : Nat}
    (hderives : Derives ctx form locals ts result locals' rest cost)
    (hother : Derives ctx form locals ts result' locals'' rest' cost') :
    result = result' ∧ locals' = locals'' ∧ rest = rest' := by
  have hread := (hderives.settles (max cost cost')).1 (Nat.le_max_left _ _)
  have hread' := (hother.settles (max cost cost')).1 (Nat.le_max_right _ _)
  rw [hread] at hread'
  simpa using hread'

theorem DerivesProgram.unique {ctx : Context} {locals locals' : List String}
    {ts : List Token} {nodes : List Node} {cost : Nat}
    (hderives : DerivesProgram ctx locals ts nodes locals' cost) :
    ∀ {others : List Node} {locals'' : List String} {cost' : Nat},
      DerivesProgram ctx locals ts others locals'' cost' → nodes = others := by
  induction hderives with
  | nil =>
      intro others locals'' cost' hother
      cases hother with
      | nil => rfl
      | last hstatement => exact absurd rfl hstatement.ne_nil
      | more _ hstatement _ => exact absurd rfl hstatement.ne_nil
  | last hstatement =>
      intro others locals'' cost' hother
      cases hother with
      | nil => exact absurd rfl hstatement.ne_nil
      | last hstatement' => rw [(hstatement.unique hstatement').1]
      | more _ hstatement' _ => cases (hstatement.unique hstatement').2.2
  | more _ hstatement _ ih =>
      intro others locals'' cost' hother
      cases hother with
      | nil => exact absurd rfl hstatement.ne_nil
      | last hstatement' => cases (hstatement.unique hstatement').2.2
      | more _ hstatement' hnodes =>
          obtain ⟨rfl, rfl, hrest⟩ := hstatement.unique hstatement'
          obtain ⟨rfl, rfl⟩ := List.cons.inj hrest
          rw [ih hnodes]

/-! ## Programs -/

theorem IsProgram.exists_derivesProgram (ctx : Context) {ts : List Token}
    {root : Option Node} (hprogram : IsProgram ctx.identification ts root) :
    ∃ (nodes : List Node) (locals' : List String) (cost : Nat),
      (collapse? nodes).map Node.withoutSpans = root ∧
        DerivesProgram ctx [] (skipSeparators ts).val nodes locals' cost := by
  cases hprogram with
  | @mk separators ts _ hseparators hitems =>
      have hpeek : peek (ts ++ []) ≠ some .separator :=
        hitems.peek_items_ne (by simp [peek])
      rw [List.append_nil] at hpeek
      rw [skipSeparators_append hseparators hpeek]
      obtain ⟨nodes, locals', cost, rfl, hderives⟩ :=
        hitems.exists_derivesProgram (tracks_nil.append hseparators.ne_assign)
      exact ⟨nodes, locals', cost, (sequence?_withoutSpans nodes).symm,
        hderives⟩

theorem IsProgram.unique {identification : String} {ts : List Token}
    {root other : Option Node} (hprogram : IsProgram identification ts root)
    (hother : IsProgram identification ts other) :
    root = other := by
  let ctx : Context := ⟨identification, Place.start⟩
  obtain ⟨nodes, _, _, rfl, hderives⟩ := hprogram.exists_derivesProgram ctx
  obtain ⟨others, _, _, rfl, hderives'⟩ := hother.exists_derivesProgram ctx
  rw [hderives.unique hderives']

theorem isProgram_of_derives {ctx : Context} {ts : List Token}
    {locals' : List String} {nodes : List Node} {cost : Nat}
    (hderives : DerivesProgram ctx [] (skipSeparators ts).val nodes
      locals' cost) :
    IsProgram ctx.identification ts
      ((collapse? nodes).map Node.withoutSpans) := by
  obtain ⟨separators, hseparators, hts⟩ := exists_separators ts
  have htracks : Tracks separators [] :=
    tracks_nil.append hseparators.ne_assign
  rw [← sequence?_withoutSpans, hts]
  exact .mk hseparators (hderives.phrase separators htracks)

/-- The parser accepts exactly the programs of the grammar, up to the nesting
limit, with their roots. -/
structure AcceptsGrammar (keep : Bool) (source : Source)
    (identification : String) (ts : List Token) : Prop where
  sound : ∀ tree, parse keep source identification = .ok tree →
    IsProgram identification ts (tree.root.map Node.withoutSpans)
  complete : ∀ root, IsProgram identification ts root →
    (∃ tree, parse keep source identification = .ok tree ∧
      tree.root.map Node.withoutSpans = root) ∨
    ∃ fault : Fault, fault.cause = .nestingTooDeep ∧
      parse keep source identification =
        .error (fault.toSyntaxError identification)
  unambiguous : ∀ root other, IsProgram identification ts root →
    IsProgram identification ts other → root = other

theorem acceptsGrammar_of_lex {keep : Bool} {source : Source}
    {identification : String} {lexed : Lexed}
    (hlex : lex source.encoding source.text = .ok lexed) :
    AcceptsGrammar keep source identification lexed.tokens := by
  constructor
  · intro tree hparse
    obtain ⟨lexed', nodes, hlex', hread, rfl⟩ := parse_eq_ok hparse
    obtain rfl : lexed = lexed' := Except.ok.inj (hlex.symm.trans hlex')
    obtain ⟨locals', cost, -, hderives⟩ := derivesProgram_of_statements hread
    exact isProgram_of_derives hderives
  · intro root hprogram
    obtain ⟨nodes, locals', cost, rfl, hderives⟩ :=
      hprogram.exists_derivesProgram ⟨identification, lexed.stop⟩
    obtain ⟨hwithin, hbeyond⟩ := hderives.statements_eq
    unfold parse readProgram
    rw [hlex]
    dsimp only
    rcases Nat.lt_or_ge maxNesting cost with hdeep | hflat
    · obtain ⟨fault, hfault, hcause⟩ := hbeyond hdeep
      rw [hfault]
      exact .inr ⟨fault, hcause, rfl⟩
    · rw [hwithin hflat]
      exact .inl ⟨_, rfl, rfl⟩
  · exact fun _ _ hroot hother => hroot.unique hother

/-- A program with separators at its ends, a folded and an applied minus, a
group and a comma too many. -/
def separatedSource : Source :=
  ⟨Utf8.encode "\n; x = -1 - -x * 2\n(x; f(y, -x,);)\n".toList, .utf8⟩

theorem acceptsGrammar_separatedSource :
    ∃ lexed, lex separatedSource.encoding separatedSource.text = .ok lexed ∧
      AcceptsGrammar true separatedSource "example" lexed.tokens := by
  have hread :
      (lex separatedSource.encoding separatedSource.text).toOption.isSome =
        true := by
    decide +kernel
  cases hlex : lex separatedSource.encoding separatedSource.text with
  | error fault =>
      rw [hlex] at hread
      cases hread
  | ok lexed => exact ⟨lexed, rfl, acceptsGrammar_of_lex hlex⟩

end Reparse.Toy
