import Reparse.Proofs.Toy.Printed

/-!
# Phrases

The grammar of the language.  `Phrase` says of which tokens a part of a program
is made up and for which node it stands, one rule for each line of the grammar:
nothing is read ahead, no level is counted, and what a bare name stands for is
settled by the tokens in front of it.
-/

namespace Reparse.Toy

/-- The parts of a program.  Operands of sums are products, and operands of
products unary expressions. -/
inductive Part where
  | statement
  | chain (tier : Tier)
  | operand (tier : Tier)
  | unary
  | primary
  | items (bracket : Bracket)

abbrev Part.Result : Part → Type
  | items _ => List Node
  | _ => Node

/-- The name is assigned to somewhere in the tokens. -/
def Assigned (name : String) (ts : List Token) : Prop :=
  [TokenKind.ident name, .assign] <:+: ts.map (·.kind)

def AllSeparators (ts : List Token) : Prop :=
  ∀ t ∈ ts, t.kind = .separator

/-- What may stand between two items: separators, at least one, or a single
comma. -/
def Bracket.IsGap : Bracket → List Token → Prop
  | .group, gap => gap ≠ [] ∧ AllSeparators gap
  | .call, gap => ∃ comma, gap = [comma] ∧ comma.kind = .comma

/-- Nothing for no statement, the only statement, or a sequence of
statements. -/
def sequence? : List Node → Option Node
  | [] => none
  | [node] => some node
  | nodes => some (.bare "begin" (nodes.map .node))

/-- The tokens that are expressions by themselves. -/
inductive IsLiteral (identification : String) : Token → Node → Prop where
  | int {t : Token} {value : Int64} (hkind : t.kind = .int value) :
      IsLiteral identification t (.bare "int" [.atom (.int value)])
  | float {t : Token} {value : Binary64} (hkind : t.kind = .float value) :
      IsLiteral identification t (.bare "float" [.atom (.float value)])
  | str {t : Token} {text : String} (hkind : t.kind = .str text) :
      IsLiteral identification t (.bare "str" [.atom (.str text)])
  | bytes {t : Token} {data : List UInt8} (hkind : t.kind = .bytes data) :
      IsLiteral identification t (.bare "str" [.atom (.bytes data)])
  | sym {t : Token} {name : String} (hkind : t.kind = .sym name) :
      IsLiteral identification t (.bare "sym" [symbol name])
  | nil {t : Token} (hkind : t.kind = .nil) :
      IsLiteral identification t (.bare "nil" [])
  | bool {t : Token} {value : Bool} (hkind : t.kind = .bool value) :
      IsLiteral identification t (.bare (if value then "true" else "false") [])
  | lineWord {t : Token} (hkind : t.kind = .lineWord) :
      IsLiteral identification t
        (.bare "int" [.atom (.int (Int64.ofNat t.start.line))])
  | fileWord {t : Token} (hkind : t.kind = .fileWord) :
      IsLiteral identification t (.bare "str" [.atom (.str identification)])

/-- The part that these tokens make up, behind those in front of it, and its
node without places. -/
inductive Phrase (identification : String) :
    (part : Part) → List Token → List Token → part.Result → Prop where
  | assignment {t mark : Token} {name : String} {before ts : List Token}
      {value : Node} (hname : t.kind = .ident name)
      (hmark : mark.kind = .assign)
      (hvalue : Phrase identification .statement (before ++ [t, mark])
        ts value) :
      Phrase identification .statement before (t :: mark :: ts)
        (.bare "lvasgn" [symbol name, .node value])
  | expression {before ts : List Token} {node : Node}
      (hsum : Phrase identification (.chain .sum) before ts node) :
      Phrase identification .statement before ts node
  | single {tier : Tier} {before ts : List Token} {node : Node}
      (hoperand : Phrase identification (.operand tier) before ts node) :
      Phrase identification (.chain tier) before ts node
  | infixed {t : Token} {op : Operator} {tier : Tier}
      {before ts ts' : List Token} {left right : Node}
      (hop : Operator.ofToken? t.kind = some op) (htier : op.tier = tier)
      (hleft : Phrase identification (.chain tier) before ts left)
      (hright : Phrase identification (.operand tier) (before ++ ts ++ [t])
        ts' right) :
      Phrase identification (.chain tier) before (ts ++ t :: ts')
        (.bare "send" [.node left, symbol op.symbol, .node right])
  | operandSum {before ts : List Token} {node : Node}
      (hproduct : Phrase identification (.chain .product) before ts node) :
      Phrase identification (.operand .sum) before ts node
  | operandProduct {before ts : List Token} {node : Node}
      (hunary : Phrase identification .unary before ts node) :
      Phrase identification (.operand .product) before ts node
  | negativeInt {minus t : Token} {value : Int64} {before : List Token}
      (hminus : minus.kind = .minus) (hint : t.kind = .int value) :
      Phrase identification .unary before [minus, t]
        (.bare "int" [.atom (.int (-value))])
  | negativeFloat {minus t : Token} {value : Binary64} {before : List Token}
      (hminus : minus.kind = .minus) (hfloat : t.kind = .float value) :
      Phrase identification .unary before [minus, t]
        (.bare "float" [.atom (.float value.neg)])
  | negation {minus : Token} {before ts : List Token} {node : Node}
      (hminus : minus.kind = .minus)
      (hoperand : ∀ kind ∈ peek ts, ¬ IsNumber kind)
      (hunary : Phrase identification .unary (before ++ [minus]) ts node) :
      Phrase identification .unary before (minus :: ts)
        (.bare "send" [.node node, symbol negationSymbol])
  | unsigned {before ts : List Token} {node : Node}
      (hprimary : Phrase identification .primary before ts node) :
      Phrase identification .unary before ts node
  | literal {t : Token} {before : List Token} {node : Node}
      (hliteral : IsLiteral identification t node) :
      Phrase identification .primary before [t] node
  | assignedName {t : Token} {name : String} {before : List Token}
      (hname : t.kind = .ident name) (hassigned : Assigned name before) :
      Phrase identification .primary before [t] (.bare "lvar" [symbol name])
  | freeName {t : Token} {name : String} {before : List Token}
      (hname : t.kind = .ident name) (hfree : ¬ Assigned name before) :
      Phrase identification .primary before [t]
        (.bare "send" [.atom .nil, symbol name])
  | call {t paren close : Token} {name : String} {before ts : List Token}
      {nodes : List Node} (hname : t.kind = .ident name)
      (hparen : paren.kind = .leftParen) (hclose : close.kind = .rightParen)
      (hitems : Phrase identification (.items .call) (before ++ [t, paren])
        ts nodes) :
      Phrase identification .primary before (t :: paren :: (ts ++ [close]))
        (.bare "send" (.atom .nil :: symbol name :: nodes.map .node))
  | group {paren close : Token} {before separators ts : List Token}
      {nodes : List Node} (hparen : paren.kind = .leftParen)
      (hseparators : AllSeparators separators)
      (hclose : close.kind = .rightParen)
      (hitems : Phrase identification (.items .group)
        (before ++ paren :: separators) ts nodes) :
      Phrase identification .primary before
        (paren :: (separators ++ ts ++ [close]))
        ((sequence? nodes).getD (.bare "begin" []))
  | itemsNone {bracket : Bracket} {before : List Token} :
      Phrase identification (.items bracket) before [] []
  | itemsLast {bracket : Bracket} {before ts : List Token} {node : Node}
      (hitem : Phrase identification .statement before ts node) :
      Phrase identification (.items bracket) before ts [node]
  | itemsMore {bracket : Bracket} {before ts gap ts' : List Token}
      {node : Node} {nodes : List Node} (hgap : bracket.IsGap gap)
      (hitem : Phrase identification .statement before ts node)
      (hitems : Phrase identification (.items bracket) (before ++ ts ++ gap)
        ts' nodes) :
      Phrase identification (.items bracket) before (ts ++ gap ++ ts')
        (node :: nodes)

/-- The tokens of a program and its root. -/
inductive IsProgram (identification : String) :
    List Token → Option Node → Prop where
  | mk {separators ts : List Token} {nodes : List Node}
      (hseparators : AllSeparators separators)
      (hitems : Phrase identification (.items .group) separators ts nodes) :
      IsProgram identification (separators ++ ts) (sequence? nodes)

/-! ## The model's nodes without places -/

theorem sequence?_withoutSpans (nodes : List Node) :
    sequence? (nodes.map Node.withoutSpans) =
      (collapse? nodes).map Node.withoutSpans := by
  match nodes with
  | [] => rfl
  | [_] => rfl
  | first :: second :: more =>
      simp only [collapse?, Option.map_some, Node.withoutSpans,
        Expr.withoutSpansList_nodes]
      rfl

theorem sequence?_getD (nodes : List Node) (span : Option Span) :
    (sequence? (nodes.map Node.withoutSpans)).getD (.bare "begin" []) =
      ((collapse? nodes).getD (.mk "begin" [] span)).withoutSpans := by
  rw [sequence?_withoutSpans]
  cases collapse? nodes <;> rfl

theorem isLiteral_iff {ctx : Context} {t : Token} {target : Node} :
    IsLiteral ctx.identification t target ↔
      ∃ node, literal? ctx t = some node ∧ node.withoutSpans = target := by
  constructor
  · intro hliteral
    cases hliteral with
    | bool hkind =>
        rename_i value
        cases value <;> exact ⟨_, by simp only [literal?, hkind]; rfl, rfl⟩
    | int hkind => exact ⟨_, by simp only [literal?, hkind]; rfl, rfl⟩
    | float hkind => exact ⟨_, by simp only [literal?, hkind]; rfl, rfl⟩
    | str hkind => exact ⟨_, by simp only [literal?, hkind]; rfl, rfl⟩
    | bytes hkind => exact ⟨_, by simp only [literal?, hkind]; rfl, rfl⟩
    | sym hkind => exact ⟨_, by simp only [literal?, hkind]; rfl, rfl⟩
    | nil hkind => exact ⟨_, by simp only [literal?, hkind]; rfl, rfl⟩
    | lineWord hkind => exact ⟨_, by simp only [literal?, hkind]; rfl, rfl⟩
    | fileWord hkind => exact ⟨_, by simp only [literal?, hkind]; rfl, rfl⟩
  · rintro ⟨node, hnode, rfl⟩
    obtain ⟨kind, start, stop⟩ := t
    cases kind with
    | int value =>
        cases Option.some.inj hnode
        exact .int rfl
    | float value =>
        cases Option.some.inj hnode
        exact .float rfl
    | str text =>
        cases Option.some.inj hnode
        exact .str rfl
    | bytes data =>
        cases Option.some.inj hnode
        exact .bytes rfl
    | sym name =>
        cases Option.some.inj hnode
        exact .sym rfl
    | nil =>
        cases Option.some.inj hnode
        exact .nil rfl
    | bool value =>
        have hbool :
            IsLiteral ctx.identification ⟨.bool value, start, stop⟩ _ :=
          .bool rfl
        cases value <;> cases Option.some.inj hnode <;> exact hbool
    | lineWord =>
        cases Option.some.inj hnode
        exact .lineWord rfl
    | fileWord =>
        cases Option.some.inj hnode
        exact .fileWord rfl
    | _ => cases hnode

/-! ## How phrases begin -/

/-- The token may begin a phrase. -/
def TokenKind.begins : TokenKind → Bool
  | rightParen | comma | plus | star | slash | assign | separator => false
  | _ => true

theorem TokenKind.ne_of_begins {kind other : TokenKind}
    (hkind : kind.begins = true) (hother : other.begins = false) :
    kind ≠ other := by
  rintro rfl
  rw [hkind] at hother
  cases hother

theorem exists_front_of_kind {t : Token} {kind : TokenKind}
    (hkind : t.kind = kind) (hbegins : kind.begins = true)
    (more : List Token) :
    ∃ first rest, t :: more = first :: rest ∧ first.kind.begins = true := by
  rw [← hkind] at hbegins
  exact ⟨t, more, rfl, hbegins⟩

theorem Operator.ne_assign_of_ofToken? {kind : TokenKind} {op : Operator}
    (hop : ofToken? kind = some op) : kind ≠ .assign := by
  rintro rfl
  cases hop

def Part.IsItems : Part → Prop
  | items _ => True
  | _ => False

def Part.IsExpression : Part → Prop
  | chain _ | operand _ | unary | primary => True
  | statement | items _ => False

section Fronts

variable {identification : String} {part : Part} {before ts : List Token}

theorem IsLiteral.begins {t : Token} {node : Node}
    (hliteral : IsLiteral identification t node) :
    t.kind.begins = true := by
  cases hliteral <;> simp_all [TokenKind.begins]

theorem IsLiteral.ne_minus {t : Token} {node : Node}
    (hliteral : IsLiteral identification t node) : t.kind ≠ .minus := by
  cases hliteral <;> simp_all

theorem IsLiteral.ne_ident {t : Token} {node : Node}
    (hliteral : IsLiteral identification t node) (name : String) :
    t.kind ≠ .ident name := by
  cases hliteral <;> simp_all

/-- Every phrase but a list of items begins with a token that may begin one. -/
theorem Phrase.exists_front {result : part.Result}
    (hphrase : Phrase identification part before ts result) :
    part.IsItems ∨ ∃ t more, ts = t :: more ∧ t.kind.begins = true := by
  induction hphrase with
  | assignment hname _ _ _ => exact .inr (exists_front_of_kind hname rfl _)
  | expression _ ih => exact .inr (ih.resolve_left id)
  | single _ ih => exact .inr (ih.resolve_left id)
  | infixed _ _ _ _ ih _ =>
      obtain ⟨t, more, rfl, hbegins⟩ := ih.resolve_left id
      exact .inr ⟨t, _, rfl, hbegins⟩
  | operandSum _ ih => exact .inr (ih.resolve_left id)
  | operandProduct _ ih => exact .inr (ih.resolve_left id)
  | negativeInt hminus _ => exact .inr (exists_front_of_kind hminus rfl _)
  | negativeFloat hminus _ => exact .inr (exists_front_of_kind hminus rfl _)
  | negation hminus _ _ _ => exact .inr (exists_front_of_kind hminus rfl _)
  | unsigned _ ih => exact .inr (ih.resolve_left id)
  | literal hliteral => exact .inr ⟨_, _, rfl, hliteral.begins⟩
  | assignedName hname _ => exact .inr (exists_front_of_kind hname rfl _)
  | freeName hname _ => exact .inr (exists_front_of_kind hname rfl _)
  | call hname _ _ _ _ => exact .inr (exists_front_of_kind hname rfl _)
  | group hparen _ _ _ _ => exact .inr (exists_front_of_kind hparen rfl _)
  | itemsNone => exact .inl trivial
  | itemsLast _ _ => exact .inl trivial
  | itemsMore _ _ _ _ _ => exact .inl trivial

theorem Phrase.peek_ne {result : part.Result} {kind : TokenKind}
    {more : List Token} (hphrase : Phrase identification part before ts result)
    (hpart : ¬ part.IsItems) (hkind : kind.begins = false) :
    peek (ts ++ more) ≠ some kind := by
  obtain ⟨t, rest, rfl, hbegins⟩ := hphrase.exists_front.resolve_left hpart
  simpa [peek] using TokenKind.ne_of_begins hbegins hkind

/-- A list of items is empty or begins with its first statement. -/
theorem Phrase.items_cases {bracket : Bracket} {nodes : List Node}
    (hphrase : Phrase identification (.items bracket) before ts nodes) :
    ts = [] ∨ ∃ t more, ts = t :: more ∧ t.kind.begins = true := by
  cases hphrase with
  | itemsNone => exact .inl rfl
  | itemsLast hitem => exact .inr (hitem.exists_front.resolve_left id)
  | itemsMore _ hitem _ =>
      obtain ⟨t, more, rfl, hbegins⟩ := hitem.exists_front.resolve_left id
      exact .inr ⟨t, _, rfl, hbegins⟩

theorem Phrase.peek_items_ne {bracket : Bracket} {nodes : List Node}
    {more : List Token}
    (hphrase : Phrase identification (.items bracket) before ts nodes)
    (hmore : peek more ≠ some .separator) :
    peek (ts ++ more) ≠ some .separator := by
  rcases hphrase.items_cases with rfl | ⟨t, rest, rfl, hbegins⟩
  · exact hmore
  · simpa [peek] using TokenKind.ne_of_begins hbegins rfl

theorem Phrase.peek_primary_ne {node : Node} {more : List Token}
    (hphrase : Phrase identification .primary before ts node) :
    peek (ts ++ more) ≠ some .minus := by
  cases hphrase with
  | literal hliteral => simpa [peek] using hliteral.ne_minus
  | assignedName hname _ => simp [peek, hname]
  | freeName hname _ => simp [peek, hname]
  | call hname _ _ _ => simp [peek, hname]
  | group hparen _ _ _ => simp [peek, hparen]

theorem isAssignment_cons_iff {t : Token} {ts : List Token} :
    IsAssignment (t :: ts) ↔
      (∃ name, t.kind = .ident name) ∧ peek ts = some .assign := by
  unfold IsAssignment peek
  cases ts with
  | nil => simp
  | cons mark ts => simp [eq_comm]

/-- No expression can be taken for an assignment. -/
theorem Phrase.not_isAssignment {result : part.Result}
    (hphrase : Phrase identification part before ts result) :
    part.IsExpression → ∀ more, peek more ≠ some .assign →
      ¬ IsAssignment (ts ++ more) := by
  induction hphrase with
  | assignment _ _ _ _ => exact False.elim
  | expression _ _ => exact False.elim
  | single _ ih => exact ih
  | @infixed t op _ _ ts ts' _ _ hop _ _ _ ih _ =>
      intro _ more _
      rw [List.append_assoc]
      refine ih trivial (t :: ts' ++ more) ?_
      simpa [peek] using Operator.ne_assign_of_ofToken? hop
  | operandSum _ ih => exact ih
  | operandProduct _ ih => exact ih
  | negativeInt hminus _ => simp [isAssignment_cons_iff, hminus]
  | negativeFloat hminus _ => simp [isAssignment_cons_iff, hminus]
  | negation hminus _ _ _ => simp [isAssignment_cons_iff, hminus]
  | unsigned _ ih => exact ih
  | literal hliteral => simp [isAssignment_cons_iff, hliteral.ne_ident]
  | assignedName _ _ =>
      intro _ more hmore hassign
      exact hmore (isAssignment_cons_iff.mp hassign).2
  | freeName _ _ =>
      intro _ more hmore hassign
      exact hmore (isAssignment_cons_iff.mp hassign).2
  | call _ hparen _ _ _ => simp [isAssignment_cons_iff, peek, hparen]
  | group hparen _ _ _ _ => simp [isAssignment_cons_iff, hparen]
  | itemsNone => exact False.elim
  | itemsLast _ _ => exact False.elim
  | itemsMore _ _ _ _ _ => exact False.elim

end Fronts

end Reparse.Toy
