import Reparse.Toy.Parser
import Mathlib.Tactic

/-!
# Readers under a budget

The mutually recursive readers of the parser are brought to one shape: a form
of the language, with what it reads as, takes the names assigned so far and the
tokens to a result, the names assigned then and the tokens left.  The
remainders lose their proofs here, so that the equations below hold between
plain lists.

A reader settles at a cost when it succeeds with one value under every budget
that covers the cost, and reports too deep a nesting under every smaller one.
-/

namespace Reparse.Toy

/-- The two lists in parentheses: the statements of a group and the arguments
of a call. -/
inductive Bracket where
  | group
  | call
  deriving DecidableEq

/-- What a reader reads.  A tail is what may follow an operand of its tier. -/
inductive Form where
  | statement
  | chain (tier : Tier)
  | operand (tier : Tier)
  | tail (tier : Tier) (left : Node)
  | unary
  | primary
  | items (bracket : Bracket)

/-- A node, or for a list its nodes with the offset after the parenthesis that
closes it. -/
abbrev Form.Result : Form → Type
  | items _ => List Node × Nat
  | _ => Node

/-- A result, the names assigned up to its end, and the tokens after it. -/
abbrev Form.Output (form : Form) :=
  form.Result × List String × List Token

/-- The token between two items. -/
def Bracket.mark : Bracket → TokenKind
  | .group => .separator
  | .call => .comma

/-- Where the next item begins after a mark. -/
def Bracket.skip : Bracket → List Token → List Token
  | .group, ts => (skipSeparators ts).val
  | .call, ts => ts

abbrev Reader (α : Type) := Nat → Except Fault α

namespace Reader

variable {α β : Type}

def done (value : α) : Reader α :=
  fun _ => .ok value

def andThen (read : Reader α) (next : α → Reader β) : Reader β :=
  fun budget => read budget >>= fun a => next a budget

/-- Reads one level deeper. -/
def descend (fault : Fault) (read : Reader α) : Reader α
  | 0 => .error fault
  | budget + 1 => read budget

def Settles (read : Reader α) (cost : Nat) (value : α) : Prop :=
  ∀ budget, (cost ≤ budget → read budget = .ok value) ∧
    (budget < cost → ∃ fault, read budget = .error fault ∧
      fault.cause = .nestingTooDeep)

theorem settles_done (value : α) : (done value).Settles 0 value :=
  fun _ => ⟨fun _ => rfl, fun hlt => absurd hlt (Nat.not_lt_zero _)⟩

theorem Settles.andThen {read : Reader α} {next : α → Reader β}
    {cost cost' : Nat} {a : α} {b : β}
    (hread : read.Settles cost a) (hnext : (next a).Settles cost' b) :
    (read.andThen next).Settles (max cost cost') b := by
  intro budget
  have hfirst := hread budget
  have hsecond := hnext budget
  constructor
  · intro hle
    simp only [Reader.andThen, hfirst.1 (by omega)]
    exact hsecond.1 (by omega)
  · intro hlt
    by_cases hshort : budget < cost
    · obtain ⟨fault, hfault, hcause⟩ := hfirst.2 hshort
      exact ⟨fault, by simp only [Reader.andThen, hfault]; rfl, hcause⟩
    · obtain ⟨fault, hfault, hcause⟩ := hsecond.2 (by omega)
      refine ⟨fault, ?_, hcause⟩
      simp only [Reader.andThen, hfirst.1 (by omega)]
      exact hfault

theorem Settles.andThen_done {read : Reader α} {next : α → Reader β}
    {cost : Nat} {a : α} {b : β}
    (hread : read.Settles cost a) (hnext : next a = done b) :
    (read.andThen next).Settles cost b := by
  have hdone : (next a).Settles 0 b := by
    rw [hnext]
    exact settles_done b
  simpa using hread.andThen hdone

theorem Settles.descend {fault : Fault} {read : Reader α} {cost : Nat} {a : α}
    (hread : read.Settles cost a) (hcause : fault.cause = .nestingTooDeep) :
    (descend fault read).Settles (cost + 1) a := by
  intro budget
  cases budget with
  | zero =>
      constructor
      · intro hle
        exact absurd hle (Nat.not_succ_le_zero _)
      · intro _
        exact ⟨fault, rfl, hcause⟩
  | succ budget =>
      constructor
      · intro hle
        exact (hread budget).1 (Nat.le_of_succ_le_succ hle)
      · intro hlt
        exact (hread budget).2 (Nat.lt_of_succ_lt_succ hlt)

end Reader

open Reader Text

/-- The output of a reader whose remainder is known to be short. -/
def plain {P : List Token → Prop} {α : Type} :
    α × List String × { rest : List Token // P rest } → α × List String ×
      List Token :=
  fun out => (out.1, out.2.1, out.2.2.val)

def plainList {ts : List Token} :
    ParsedList ts → (List Node × Nat) × List String × List Token :=
  fun (out : ParsedList ts) => ((out.1, out.2.1), out.2.2.1, out.2.2.2.val)

/-- The reader of a form. -/
def Form.read (ctx : Context) :
    (form : Form) → List String → List Token → Reader form.Output
  | .statement, locals, ts =>
      fun budget => (Toy.statement ctx budget locals ts).map plain
  | .chain tier, locals, ts =>
      fun budget => (Toy.chain ctx tier budget locals ts).map plain
  | .operand tier, locals, ts =>
      fun budget => (Toy.operand ctx tier budget locals ts).map plain
  | .tail tier left, locals, ts =>
    fun budget => (chainTail ctx tier budget left locals ts).map plain
  | .unary, locals, ts =>
      fun budget => (Toy.unary ctx budget locals ts).map plain
  | .primary, locals, ts =>
      fun budget => (Toy.primary ctx budget locals ts).map plain
  | .items .group, locals, ts =>
      fun budget => (Toy.group ctx budget locals ts).map plainList
  | .items .call, locals, ts =>
      fun budget => (Toy.arguments ctx budget locals ts).map plainList

/-- The fault for a token that neither separates nor closes items. -/
def Bracket.cause : Bracket → Option TokenKind → Cause
  | .group, found => .unexpectedToken found
  | .call, found => .argumentEndExpected found

/-- Reads on after an item: the list closes, or a mark stands before the next
item. -/
def afterItem (ctx : Context) (bracket : Bracket)
    (out : Form.statement.Output) : Reader (Form.items bracket).Output :=
  match out.2.2 with
  | [] => fun _ => .error (ctx.faultAt [] (bracket.cause none))
  | t :: rest =>
    if t.kind = .rightParen then done (([out.1], t.stop), out.2.1, rest)
    else if t.kind = bracket.mark then
      ((Form.items bracket).read ctx out.2.1 (bracket.skip rest)).andThen
        fun more => done ((out.1 :: more.1.1, more.1.2), more.2)
    else fun _ => .error (t.start.fault (bracket.cause (some t.kind)))

/-! ## What stands in front -/

/-- The tokens begin with a name and the sign of an assignment. -/
def IsAssignment (ts : List Token) : Prop :=
  ∃ name, [TokenKind.ident name, .assign] <+: ts.map (·.kind)

/-- The tokens begin with an operator of the tier. -/
def Continues (tier : Tier) (ts : List Token) : Prop :=
  ∃ op, (peek ts).bind Operator.ofToken? = some op ∧ op.tier = tier

def IsNumber : TokenKind → Prop
  | .int _ => True
  | .float _ => True
  | _ => False

@[simp] theorem Context.faultAt_cause (ctx : Context) (ts : List Token)
    (cause : Cause) :
    (ctx.faultAt ts cause).cause = cause := by
  cases ts <;> rfl

theorem IsAssignment.shape {ts : List Token} (hassign : IsAssignment ts) :
    ∃ t mark rest name, ts = t :: mark :: rest ∧ t.kind = .ident name ∧
      mark.kind = .assign := by
  obtain ⟨name, more, hkinds⟩ := hassign
  match ts, hkinds with
  | [_], hkinds => simp at hkinds
  | t :: mark :: rest, hkinds =>
      simp only [List.cons_append, List.map_cons, List.cons.injEq] at hkinds
      exact ⟨t, mark, rest, name, rfl, hkinds.1.symm, hkinds.2.1.symm⟩

theorem Continues.shape {tier : Tier} {ts : List Token}
    (hcontinues : Continues tier ts) :
    ∃ t rest op, ts = t :: rest ∧ Operator.ofToken? t.kind = some op ∧
      op.tier = tier := by
  obtain ⟨op, hop, htier⟩ := hcontinues
  cases ts with
  | nil => cases hop
  | cons t rest => exact ⟨t, rest, op, rfl, hop, htier⟩

theorem exists_of_peek_eq {ts : List Token} {kind : TokenKind}
    (hpeek : peek ts = some kind) :
    ∃ t rest, ts = t :: rest ∧ t.kind = kind := by
  cases ts with
  | nil => cases hpeek
  | cons t rest => exact ⟨t, rest, rfl, Option.some.inj hpeek⟩

theorem takeTarget?_eq_none {ts : List Token} (hplain : ¬ IsAssignment ts) :
    takeTarget? ts = none := by
  unfold takeTarget?
  split
  · next t next rest =>
      split
      · next name hname hassign =>
          exact absurd ⟨name, by simp [hname, hassign]⟩ hplain
      · rfl
  · rfl

theorem takeOperator?_eq_none {tier : Tier} {ts : List Token}
    (hstop : ¬ Continues tier ts) :
    takeOperator? tier ts = none := by
  unfold takeOperator?
  split
  · rfl
  · next t rest =>
      split
      · next op hop =>
          rw [if_neg]
          exact fun htier => hstop ⟨op, by simpa [peek] using hop, htier⟩
      · rfl

theorem take?_eq_none {kind : TokenKind} {ts : List Token}
    (hpeek : peek ts ≠ some kind) :
    take? kind ts = none := by
  unfold take?
  split
  · rfl
  · exact if_neg fun hkind => hpeek (by simp [peek, hkind])

theorem negated?_eq_none_iff {minus t : Token} :
    negated? minus t = none ↔ ¬ IsNumber t.kind := by
  unfold negated? IsNumber
  split <;> simp_all

/-! ## The readers, one step each -/

section Equations

variable {ctx : Context} {locals : List String} {ts rest : List Token}
variable {t mark : Token}

theorem read_assignment {name : String} (hname : t.kind = .ident name)
    (hmark : mark.kind = .assign) :
    Form.statement.read ctx locals (t :: mark :: rest) =
      descend (ctx.faultAt (t :: mark :: rest) .nestingTooDeep)
        ((Form.statement.read ctx (name :: locals) rest).andThen fun out =>
          done (.mk "lvasgn" [symbol name, .node out.1]
            (some (t.spanTo (stopOf out.1))), out.2)) := by
  funext budget
  cases budget with
  | zero => simp [Form.read, statement, descend, Except.map]
  | succ budget =>
      have htarget : takeTarget? (t :: mark :: rest) =
          some (t, name, ⟨rest, by simp only [List.length_cons]; omega⟩) := by
        simp [takeTarget?, hname, hmark]
      simp only [Form.read, descend, Reader.andThen, statement, htarget]
      cases statement ctx budget (name :: locals) rest <;> rfl

theorem read_expression (hplain : ¬ IsAssignment ts) :
    Form.statement.read ctx locals ts =
      descend (ctx.faultAt ts .nestingTooDeep)
        ((Form.chain .sum).read ctx locals ts) := by
  funext budget
  cases budget with
  | zero => simp [Form.read, statement, descend, Except.map]
  | succ budget =>
      simp only [Form.read, descend, statement, takeTarget?_eq_none hplain]

theorem read_chain (tier : Tier) :
    (Form.chain tier).read ctx locals ts =
      ((Form.operand tier).read ctx locals ts).andThen fun out =>
        (Form.tail tier out.1).read ctx out.2.1 out.2.2 := by
  funext budget
  simp only [Form.read, Reader.andThen]
  rw [chain]
  cases operand ctx tier budget locals ts with
  | error fault => rfl
  | ok out =>
      obtain ⟨left, locals', rest, hrest⟩ := out
      simp only [Except.map, plain, bind, Except.bind]
      cases chainTail ctx tier budget left locals' rest <;> rfl

theorem read_operand_sum :
    (Form.operand .sum).read ctx locals ts =
      (Form.chain .product).read ctx locals ts := by
  funext budget
  simp only [Form.read, operand]

theorem read_operand_product :
    (Form.operand .product).read ctx locals ts =
      Form.unary.read ctx locals ts := by
  funext budget
  simp only [Form.read, operand]

theorem read_tail_end {tier : Tier} {left : Node}
    (hstop : ¬ Continues tier ts) :
    (Form.tail tier left).read ctx locals ts = done (left, locals, ts) := by
  funext budget
  simp only [Form.read, done]
  rw [chainTail]
  simp only [takeOperator?_eq_none hstop]
  rfl

theorem read_tail_operator {tier : Tier} {left : Node} {op : Operator}
    (hop : Operator.ofToken? t.kind = some op) (htier : op.tier = tier) :
    (Form.tail tier left).read ctx locals (t :: rest) =
      descend (ctx.faultAt rest .nestingTooDeep)
        (((Form.operand tier).read ctx locals rest).andThen fun out =>
          (Form.tail tier (binary left op out.1)).read ctx out.2.1
            out.2.2) := by
  funext budget
  have htake :
      takeOperator? tier (t :: rest) = some (op, Rest.tail t rest) := by
    simp [takeOperator?, hop, htier]
  simp only [Form.read]
  rw [chainTail]
  simp only [htake, Rest.tail]
  cases budget with
  | zero => rfl
  | succ budget =>
      simp only [descend, Reader.andThen]
      cases operand ctx tier budget locals rest with
      | error fault => rfl
      | ok out =>
          obtain ⟨right, locals', rest', hrest⟩ := out
          simp only [Except.map, plain, bind, Except.bind]
          cases chainTail ctx tier budget (binary left op right) locals'
            rest' <;> rfl

theorem read_negative_literal {node : Node} (hminus : mark.kind = .minus)
    (hnode : negated? mark t = some node) :
    Form.unary.read ctx locals (mark :: t :: rest) =
      done (node, locals, rest) := by
  funext budget
  simp only [Form.read, done]
  rw [unary]
  simp [take?, hminus, takeNegated?, hnode, Rest.tail, Except.map, plain]

theorem read_negation (hminus : mark.kind = .minus)
    (hoperand : ∀ kind ∈ peek rest, ¬ IsNumber kind) :
    Form.unary.read ctx locals (mark :: rest) =
      descend (ctx.faultAt rest .nestingTooDeep)
        ((Form.unary.read ctx locals rest).andThen fun out =>
          done (.mk "send" [.node out.1, symbol negationSymbol]
            (some (mark.spanTo (stopOf out.1))), out.2)) := by
  funext budget
  have hnone : takeNegated? mark rest = none := by
    cases rest with
    | nil => rfl
    | cons t rest =>
        have ht : negated? mark t = none :=
          negated?_eq_none_iff.mpr (hoperand t.kind (by simp [peek]))
        simp [takeNegated?, ht]
  simp only [Form.read]
  rw [unary]
  simp only [take?, hminus, if_true, Rest.tail, hnone]
  cases budget with
  | zero => rfl
  | succ budget =>
      simp only [descend, Reader.andThen]
      cases unary ctx budget locals rest <;> rfl

theorem read_unary_primary (hpeek : peek ts ≠ some .minus) :
    Form.unary.read ctx locals ts = Form.primary.read ctx locals ts := by
  funext budget
  simp only [Form.read]
  rw [unary]
  simp only [take?_eq_none hpeek]

theorem read_literal {node : Node} (hnode : literal? ctx t = some node) :
    Form.primary.read ctx locals (t :: rest) = done (node, locals, rest) := by
  funext budget
  simp only [Form.read, done]
  rw [primary]
  simp only [hnode]
  rfl

theorem literal?_eq_none_of_ident {name : String}
    (hname : t.kind = .ident name) :
    literal? ctx t = none := by
  simp [literal?, hname]

theorem read_name {name : String} (hname : t.kind = .ident name)
    (hpeek : peek rest ≠ some .leftParen) :
    Form.primary.read ctx locals (t :: rest) =
      done (nameNode locals name t.span, locals, rest) := by
  funext budget
  simp only [Form.read, done]
  rw [primary]
  simp only [literal?_eq_none_of_ident hname, hname, take?_eq_none hpeek]
  rfl

theorem read_call {name : String} (hname : t.kind = .ident name)
    (hparen : mark.kind = .leftParen) :
    Form.primary.read ctx locals (t :: mark :: rest) =
      ((Form.items .call).read ctx locals rest).andThen fun out =>
        done (.mk "send" (.atom .nil :: symbol name :: out.1.1.map .node)
          (some (t.spanTo out.1.2)), out.2) := by
  funext budget
  simp only [Form.read, Reader.andThen]
  rw [primary]
  simp only [literal?_eq_none_of_ident hname, hname, take?, hparen, if_true,
    Rest.tail]
  cases arguments ctx budget locals rest <;> rfl

theorem read_group (hparen : t.kind = .leftParen) :
    Form.primary.read ctx locals (t :: rest) =
      ((Form.items .group).read ctx locals (skipSeparators rest).val).andThen
        fun out =>
          done ((collapse? out.1.1).getD
            (.mk "begin" [] (some (t.spanTo out.1.2))), out.2) := by
  funext budget
  have hnone : literal? ctx t = none := by simp [literal?, hparen]
  simp only [Form.read, Reader.andThen]
  rw [primary]
  simp only [hnone, hparen]
  cases group ctx budget locals (skipSeparators rest).val <;> rfl

/-- Only a literal, a name or an opening parenthesis begins a primary
expression. -/
theorem front_of_read_primary {budget : Nat} {out : Form.primary.Output}
    (hread : Form.primary.read ctx locals ts budget = .ok out) :
    ∃ t rest, ts = t :: rest ∧
      ((∃ node, literal? ctx t = some node) ∨ (∃ name, t.kind = .ident name) ∨
        t.kind = .leftParen) := by
  simp only [Form.read] at hread
  rw [primary.eq_def] at hread
  split at hread
  · cases hread
  · next t rest =>
      refine ⟨t, rest, rfl, ?_⟩
      split at hread
      · next node hnode => exact .inl ⟨node, hnode⟩
      · split at hread
        · next name hname => exact .inr (.inl ⟨name, hname⟩)
        · next hparen => exact .inr (.inr hparen)
        · cases hread

theorem read_items_end {bracket : Bracket} (hclose : t.kind = .rightParen) :
    (Form.items bracket).read ctx locals (t :: rest) =
      done (([], t.stop), locals, rest) := by
  funext budget
  cases bracket with
  | group =>
      simp only [Form.read, done]
      rw [group]
      simp only [take?, hclose, if_true]
      rfl
  | call =>
      simp only [Form.read, done]
      rw [arguments]
      simp only [take?, hclose, if_true]
      rfl

theorem read_items_item {bracket : Bracket}
    (hopen : peek ts ≠ some .rightParen) :
    (Form.items bracket).read ctx locals ts =
      (Form.statement.read ctx locals ts).andThen (afterItem ctx bracket) := by
  funext budget
  cases bracket with
  | group =>
      simp only [Form.read, Reader.andThen]
      rw [group]
      simp only [take?_eq_none hopen]
      cases statement ctx budget locals ts with
      | error fault => rfl
      | ok out =>
          obtain ⟨node, locals', rest, hrest⟩ := out
          cases rest with
          | nil => rfl
          | cons t rest =>
              simp only [Except.map, plain, bind, Except.bind, afterItem]
              by_cases hclose : t.kind = .rightParen
              · simp [take?, hclose, done, plainList, Rest.tail]
              by_cases hmark : t.kind = .separator
              · simp only [take?, hmark, reduceCtorEq, if_false, if_true,
                  Rest.tail, Bracket.mark, Reader.andThen, Form.read,
                  Bracket.skip]
                cases group ctx budget locals' (skipSeparators rest).val <;>
                  rfl
              · simp [take?, hclose, hmark, Bracket.mark, Bracket.cause, peek,
                  Context.faultAt]
  | call =>
      simp only [Form.read, Reader.andThen]
      rw [arguments]
      simp only [take?_eq_none hopen]
      cases statement ctx budget locals ts with
      | error fault => rfl
      | ok out =>
          obtain ⟨node, locals', rest, hrest⟩ := out
          cases rest with
          | nil => rfl
          | cons t rest =>
              simp only [Except.map, plain, bind, Except.bind, afterItem]
              by_cases hclose : t.kind = .rightParen
              · simp [take?, hclose, done, plainList, Rest.tail]
              by_cases hmark : t.kind = .comma
              · simp only [take?, hmark, reduceCtorEq, if_false, if_true,
                  Rest.tail, Bracket.mark, Reader.andThen, Form.read,
                  Bracket.skip]
                cases arguments ctx budget locals' rest <;> rfl
              · simp [take?, hclose, hmark, Bracket.mark, Bracket.cause, peek,
                  Context.faultAt]

end Equations

end Reparse.Toy
