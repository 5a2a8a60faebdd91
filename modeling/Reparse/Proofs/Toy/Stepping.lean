import Reparse.Proofs.Toy.Cursor
import Reparse.Proofs.Toy.Faults

/-!
# The parser by positions is the parser

At a position the items that are left are the tokens left and the mark behind
them.  A reader by positions follows a reader when they end alike from every
position at which the same tokens are left.  Each reader follows if the readers
of its parts do.

A position is never beyond the mark, and a reader leaves as many levels open as
it has found, or more when it is rejected.  So there is always an item in front
and a level to close.
-/

namespace Reparse.Toy

open Text Checked

/-- The item in front of some tokens and the mark. -/
def Context.front (ctx : Context) : List Token → Item
  | [] => .stop ctx.stop
  | t :: _ => .token t

/-- How many levels a reader leaves open; a tail has one more for each of its
operators. -/
def Form.levels : Form → Nat → Nat → Prop
  | tail _ _ => fun before after => before ≤ after
  | _ => fun before after => before = after

namespace Cursor

/-- The tokens are left at a position, in front of the mark. -/
def Faces (items : List Item) (ctx : Context) (pos : Nat) (ts : List Token) :
    Prop :=
  items.drop pos = ts.map .token ++ [.stop ctx.stop]

/-- The run ends as the result says.  At a fault there still is an item in
front, and no level is missing. -/
def Ends {α ρ : Type} (items : List Item) (depth : Nat)
    (goes : α → Cursor → ρ → Prop) (outcome : Outcome Cursor α)
    (result : Except Fault ρ) : Prop :=
  outcome.EndsAs (fun st =>
    st.pos < items.length ∧ depth ≤ st.depth) goes result

/-- The run ends with the value of a reader, before the tokens that the reader
leaves. -/
def Matches {α : Type} (items : List Item) (ctx : Context)
    (levels : Nat → Nat → Prop) (depth : Nat) (outcome : Outcome Cursor α)
    (result : Except Fault (α × List String × List Token)) : Prop :=
  Ends items depth (fun value st out =>
    value = out.1 ∧ Faces items ctx st.pos out.2.2 ∧
    st.locals = out.2.1 ∧ levels depth st.depth) outcome result

/-- From wherever the tokens are left, the run ends as the reader of the form
does. -/
def Follows (items : List Item) (ctx : Context) (form : Form)
    (run : Step form.Result) (ts : List Token) : Prop :=
  ∀ st, Faces items ctx st.pos ts →
    Matches items ctx form.levels st.depth (run st)
      (form.read ctx st.locals ts (maxNesting - st.depth))

variable {items : List Item} {ctx : Context} {st : Cursor}
variable {ts rest : List Token} {t : Token}

/-! ## Items in front -/

section Front

theorem front_kind (ctx : Context) (ts : List Token) :
    (ctx.front ts).kind = Toy.peek ts := by
  cases ts <;> rfl

theorem front_fault (ctx : Context) (ts : List Token) (cause : Cause) :
    (ctx.front ts).place.fault cause = ctx.faultAt ts cause := by
  cases ts <;> rfl

theorem Faces.length_eq {pos : Nat} (h : Faces items ctx pos ts) :
    pos + ts.length + 1 = items.length := by
  have hlength := congrArg List.length h
  simp only [List.length_drop, List.length_append, List.length_map,
    List.length_cons, List.length_nil] at hlength
  omega

theorem Faces.next {pos : Nat} (h : Faces items ctx pos (t :: ts)) :
    Faces items ctx (pos + 1) ts := by
  have htail := congrArg List.tail h
  rwa [List.tail_drop] at htail

theorem Faces.getElem? {pos : Nat} (h : Faces items ctx pos ts) :
    items[pos]? = some (ctx.front ts) := by
  have hhead := congrArg List.head? h
  rw [List.head?_drop] at hhead
  rw [hhead]
  cases ts <;> rfl

theorem current_apply (h : Faces items ctx st.pos ts) :
    current items st = .done (ctx.front ts) st := by
  rw [current, bind_of_done state_apply, elementAt_apply h.getElem?]

theorem peek_apply (h : Faces items ctx st.pos ts) :
    peek items st = .done (Toy.peek ts) st := by
  rw [peek, bind_of_done (current_apply h), front_kind]
  rfl

theorem lastIndex_apply (h : Faces items ctx st.pos ts) :
    (difference items.length 1 : Step Nat) st =
      .done (st.pos + ts.length) st := by
  have hlength := h.length_eq
  rw [difference_apply (by omega), ← hlength, Nat.add_sub_cancel]

theorem peekNext_apply (h : Faces items ctx st.pos ts) :
    peekNext items st = .done (Toy.peek ts.tail) st := by
  have hnext :
      items[min (st.pos + 1) (st.pos + ts.length)]? =
        some (ctx.front ts.tail) := by
    cases ts with
    | nil => simpa using h.getElem?
    | cons t ts => simpa using h.next.getElem?
  rw [peekNext, bind_of_done state_apply, bind_of_done (lastIndex_apply h),
    bind_of_done (elementAt_apply hnext), front_kind]
  rfl

theorem advance_token (h : Faces items ctx st.pos (t :: ts)) :
    advance items st = .done (.token t) { st with pos := st.pos + 1 } := by
  have hlt : st.pos < st.pos + (t :: ts).length := by simp
  rw [advance, bind_of_done (current_apply h),
    bind_of_done (lastIndex_apply h),
    bind_of_done update_apply, if_pos hlt]
  rfl

theorem advance_stop (h : Faces items ctx st.pos []) :
    advance items st = .done (.stop ctx.stop) st := by
  rw [advance, bind_of_done (current_apply h),
    bind_of_done (lastIndex_apply h),
    bind_of_done update_apply, if_neg (by simp)]
  rfl

theorem reject_apply {α : Type} (h : Faces items ctx st.pos ts)
    (cause : Cause) :
    (reject items cause : Step α) st = .fault (ctx.faultAt ts cause) st := by
  rw [reject, bind_of_done (current_apply h), front_fault]
  rfl

theorem skipSeparators_cons (hkind : t.kind = .separator) :
    (Toy.skipSeparators (t :: rest)).val = (Toy.skipSeparators rest).val :=
  List.dropWhile_cons_of_pos (by simp [isSeparator, hkind])

theorem skipSeparators_apply {n : Nat} (h : Faces items ctx st.pos ts)
    (hn : ts.length < n) :
    ∃ pos, skipSeparators items n st = .done () { st with pos } ∧
      Faces items ctx pos (Toy.skipSeparators ts).val := by
  induction n generalizing st ts with
  | zero => exact absurd hn (Nat.not_lt_zero _)
  | succ n ih =>
      rw [skipSeparators, bind_of_done (peek_apply h)]
      by_cases hmark : Toy.peek ts = some .separator
      · obtain ⟨t, rest, rfl, hkind⟩ := exists_of_peek_eq hmark
        rw [if_pos hmark, bind_of_done (advance_token h),
          skipSeparators_cons hkind]
        exact ih h.next (Nat.lt_of_succ_lt_succ hn)
      · have hskip : (Toy.skipSeparators ts).val = ts := by
          cases ts with
          | nil => rfl
          | cons t rest =>
              refine List.dropWhile_cons_of_neg fun hkind => hmark ?_
              simpa [isSeparator, Toy.peek] using hkind
        rw [if_neg hmark, hskip]
        exact ⟨st.pos, rfl, h⟩

end Front

/-! ## Runs put together -/

section Combinators

variable {α β : Type} {levels : Nat → Nat → Prop} {depth : Nat}

theorem matches_done {a : α} (h : Faces items ctx st.pos ts) :
    Matches items ctx (· = ·) st.depth (.done a st) (.ok (a, st.locals, ts)) :=
  ⟨a, st, rfl, rfl, h, rfl, rfl⟩

theorem ends_reject {ρ : Type} {goes : α → Cursor → ρ → Prop}
    (h : Faces items ctx st.pos ts) (cause : Cause) :
    Ends items st.depth goes ((reject items cause : Step α) st)
      (.error (ctx.faultAt ts cause)) := by
  have hlength := h.length_eq
  exact ⟨st, reject_apply h cause, by omega, Nat.le_refl _⟩

/-- What comes after a reader decides how the whole ends. -/
theorem Matches.bind {ρ : Type} {goes : β → Cursor → ρ → Prop} {run : Step α}
    {next : α → Step β} {result : Except Fault (α × List String × List Token)}
    {more : α × List String × List Token → Except Fault ρ}
    (hrun : Matches items ctx (· = ·) depth (run st) result)
    (hnext : ∀ a last rest, result = .ok (a, last.locals, rest) →
      Faces items ctx last.pos rest → last.depth = depth →
      Ends items depth goes (next a last) (more (a, last.locals, rest))) :
    Ends items depth goes ((run >>= next) st) (result >>= more) :=
  endsAs_bind hrun fun a last out hout hgoes => by
    obtain ⟨rfl, hfaces, hlocals, hdepth⟩ := hgoes
    obtain ⟨a, locals, rest⟩ := out
    cases hlocals
    exact hnext a last rest hout hfaces hdepth.symm

theorem Matches.map {run : Step α} {f : α → β}
    {result : Except Fault (α × List String × List Token)}
    (hrun : Matches items ctx (· = ·) depth (run st) result) :
    Matches items ctx (· = ·) depth ((do let a ← run; pure (f a) : Step β) st)
      (result.map fun out => (f out.1, out.2)) :=
  endsAs_map hrun fun _ _ _ hgoes => ⟨congrArg f hgoes.1, hgoes.2⟩

theorem Matches.weaken {outcome : Outcome Cursor α} {before : Nat}
    {result : Except Fault (α × List String × List Token)}
    (hle : before ≤ depth)
    (h : Matches items ctx (· ≤ ·) depth outcome result) :
    Matches items ctx (· ≤ ·) before outcome result := by
  cases result with
  | error fault =>
      obtain ⟨last, hfault, hpos, hdepth⟩ := h
      exact ⟨last, hfault, hpos, hle.trans hdepth⟩
  | ok found =>
      obtain ⟨a, last, hdone, hvalue, hfaces, hlocals, hdepth⟩ := h
      exact ⟨a, last, hdone, hvalue, hfaces, hlocals, hle.trans hdepth⟩

/-- Giving back the levels that a tail has opened. -/
theorem Matches.restore {run : Step α}
    {result : Except Fault (α × List String × List Token)}
    (hrun : Matches items ctx (· ≤ ·) depth (run st) result) :
    Matches items ctx (· = ·) depth
      ((do let a ← run; update fun last =>
        { last with depth }; pure a : Step α) st) result := by
  cases result with
  | error fault =>
      obtain ⟨last, hfault, hbounds⟩ := hrun
      exact ⟨last, bind_of_fault hfault, hbounds⟩
  | ok found =>
      obtain ⟨a, last, hdone, hvalue, hfaces, hlocals, -⟩ := hrun
      exact ⟨a, { last with depth }, bind_of_done hdone, hvalue, hfaces,
        hlocals, rfl⟩

/-! ## Levels -/

/-- A level is opened, unless the budget is spent. -/
theorem matches_descend {next : Step α}
    {read : Reader (α × List String × List Token)}
    (h : Faces items ctx st.pos ts)
    (hnext : Matches items ctx levels st.depth
      (next { st with depth := st.depth + 1 })
        (read (maxNesting - (st.depth + 1)))) :
    Matches items ctx levels st.depth ((do descend items; next : Step α) st)
      (Reader.descend (ctx.faultAt ts .nestingTooDeep) read
        (maxNesting - st.depth)) := by
  have hopened :
      (update (fun st => { st with depth := st.depth + 1 }) : Step Unit) st =
      .done () { st with depth := st.depth + 1 } := rfl
  cases hbudget : maxNesting - st.depth with
  | zero =>
      have hdeep : maxNesting < st.depth + 1 := by omega
      have hlength := h.length_eq
      have hpos : st.pos < items.length := by omega
      refine ⟨{ st with depth := st.depth + 1 }, bind_of_fault ?_, hpos,
        Nat.le_succ _⟩
      have hreject :
          (reject items .nestingTooDeep : Step Unit)
            { st with depth := st.depth + 1 } =
          .fault (ctx.faultAt ts .nestingTooDeep)
            { st with depth := st.depth + 1 } := by
        refine reject_apply ?_ _
        exact h
      rw [descend, bind_of_done hopened, bind_of_done state_apply,
        if_pos hdeep]
      exact hreject
  | succ budget =>
      have hshallow : ¬ maxNesting < st.depth + 1 := by omega
      have hrest : maxNesting - (st.depth + 1) = budget := by omega
      have hdescend :
          descend items st = .done () { st with depth := st.depth + 1 } := by
        rw [descend, bind_of_done hopened, bind_of_done state_apply,
          if_neg hshallow]
        rfl
      rw [hrest] at hnext
      rw [bind_of_done hdescend]
      exact hnext

theorem ascend_apply (hdepth : 1 ≤ st.depth) :
    ascend st = .done () { st with depth := st.depth - 1 } := by
  rw [ascend, bind_of_done state_apply, bind_of_done (difference_apply hdepth)]
  rfl

/-- A fault leaves as many levels as were opened, so that one of them is there
to be closed. -/
theorem matches_nested {run : Step α}
    {read : Reader (α × List String × List Token)}
    (h : Faces items ctx st.pos ts)
    (hrun : Matches items ctx (· = ·) (st.depth + 1)
      (run { st with depth := st.depth + 1 })
        (read (maxNesting - (st.depth + 1)))) :
    Matches items ctx (· = ·) st.depth (nested items run st)
      (Reader.descend (ctx.faultAt ts .nestingTooDeep) read
        (maxNesting - st.depth)) := by
  refine matches_descend h ?_
  cases hresult : read (maxNesting - (st.depth + 1)) with
  | error fault =>
      rw [hresult] at hrun
      obtain ⟨last, hfault, hpos, hdepth⟩ := hrun
      refine ⟨{ last with depth := last.depth - 1 }, ?_, hpos,
        Nat.le_sub_of_add_le hdepth⟩
      rw [bind_of_done (attempt_of_fault hfault),
        bind_of_done (ascend_apply (by omega))]
      rfl
  | ok found =>
      rw [hresult] at hrun
      obtain ⟨a, last, hdone, hvalue, hfaces, hlocals, hdepth⟩ := hrun
      refine ⟨a, { last with depth := last.depth - 1 }, ?_, hvalue,
        hfaces, hlocals,
        Nat.eq_sub_of_add_eq hdepth⟩
      rw [bind_of_done (attempt_of_done hdone),
        bind_of_done (ascend_apply (by omega))]
      rfl

end Combinators

/-! ## Statements -/

section Statements

variable {mark : Token} {name : String}

theorem target?_of_assignment (h : Faces items ctx st.pos (t :: mark :: rest))
    (hname : t.kind = .ident name) (hmark : mark.kind = .assign) :
    target? items st = .done (some name) st := by
  have hfirst : Toy.peek (t :: mark :: rest) = some (.ident name) :=
    congrArg some hname
  have hnext : Toy.peek (t :: mark :: rest).tail = some .assign :=
    congrArg some hmark
  rw [target?, bind_of_done (peek_apply h), hfirst]
  dsimp only
  rw [bind_of_done (peekNext_apply h), if_pos hnext]
  rfl

theorem target?_of_expression (h : Faces items ctx st.pos ts)
    (hplain : ¬ IsAssignment ts) :
    target? items st = .done none st := by
  rw [target?, bind_of_done (peek_apply h)]
  generalize hfirst : Toy.peek ts = first
  split
  · next name =>
      have hnext : Toy.peek ts.tail ≠ some .assign := fun hassign => hplain (by
        obtain ⟨t, rest, rfl, hkind⟩ := exists_of_peek_eq hfirst
        obtain ⟨mark, rest, rfl, hmark⟩ := exists_of_peek_eq hassign
        exact ⟨name, by simp [hkind, hmark]⟩)
      rw [bind_of_done (peekNext_apply h), if_neg hnext]
      rfl
  · rfl

theorem follows_statement {value expression : Step Node}
    (hvalue : ∀ more : List Token, more.length < ts.length →
      Follows items ctx .statement value more)
    (hexpression : Follows items ctx (.chain .sum) expression ts) :
    Follows items ctx .statement (statement items value expression) ts := by
  intro st h
  by_cases hassign : IsAssignment ts
  · obtain ⟨t, mark, rest, name, rfl, hname, hmark⟩ := hassign.shape
    rw [read_assignment hname hmark]
    refine matches_nested h ?_
    let opened : Cursor := { st with depth := st.depth + 1 }
    have hopened : Faces items ctx opened.pos (t :: mark :: rest) := h
    rw [bind_of_done (target?_of_assignment hopened hname hmark)]
    dsimp only
    rw [assignment, bind_of_done (advance_token hopened),
      bind_of_done (advance_token hopened.next),
      bind_of_done update_apply]
    exact
      (hvalue rest (by simp) ⟨st.pos + 1 + 1, name :: st.locals, st.depth + 1⟩
        h.next.next).map
  · rw [read_expression hassign]
    refine matches_nested h ?_
    let opened : Cursor := { st with depth := st.depth + 1 }
    have hopened : Faces items ctx opened.pos ts := h
    rw [bind_of_done (target?_of_expression hopened hassign)]
    exact hexpression opened hopened

end Statements

/-! ## Chains -/

section Chains

variable {tier : Tier} {operand : Step Node}

theorem follows_tail (n : Nat) (left : Node) (hn : ts.length < n)
    (hoperand : ∀ more : List Token, more.length < ts.length →
      Follows items ctx (.operand tier) operand more) :
    Follows items ctx (.tail tier left)
      (tail items operand tier n left) ts := by
  induction n generalizing ts left with
  | zero => exact absurd hn (Nat.not_lt_zero _)
  | succ n ih =>
      intro st h
      rw [tail, bind_of_done (peek_apply h)]
      by_cases hcontinues : Continues tier ts
      · obtain ⟨t, rest, op, rfl, hop, htier⟩ := hcontinues.shape
        have hpeek : (Toy.peek (t :: rest)).bind Operator.ofToken? = some op :=
          hop
        rw [read_tail_operator hop htier, hpeek]
        dsimp only
        rw [if_pos htier, bind_of_done (advance_token h)]
        have hnext :
            Faces items ctx ({ st with pos := st.pos + 1 } : Cursor).pos
              rest :=
          h.next
        -- The level of the operator stays open behind its operand.
        refine matches_descend hnext (Matches.weaken (Nat.le_succ st.depth) ?_)
        have hright := hoperand rest (Nat.lt_succ_self _)
          ⟨st.pos + 1, st.locals, st.depth + 1⟩ h.next
        refine hright.bind fun right last more hread hfaces hdepth => ?_
        have hmore : more.length < rest.length :=
          Form.length_lt_of_read (by simp) hread
        have hshorter : more.length < (t :: rest).length :=
          hmore.trans (Nat.lt_succ_self _)
        have htail := ih (binary left op right) (by omega)
          (fun ts' hts' => hoperand ts' (hts'.trans hshorter)) last hfaces
        rwa [hdepth] at htail
      · rw [read_tail_end hcontinues]
        refine ⟨left, st, ?_, rfl, h, rfl, Nat.le_refl _⟩
        generalize hop : (Toy.peek ts).bind Operator.ofToken? = found
        cases found with
        | none => rfl
        | some op =>
            exact congrFun (if_neg fun htier => hcontinues ⟨op, hop, htier⟩) st

theorem follows_chain (n : Nat) (hn : ts.length ≤ n)
    (hoperand : ∀ more : List Token, more.length ≤ ts.length →
      Follows items ctx (.operand tier) operand more) :
    Follows items ctx (.chain tier) (chain items operand tier n) ts := by
  intro st h
  rw [chain, bind_of_done state_apply, read_chain]
  refine (hoperand ts (Nat.le_refl _) st h).bind
    fun left last more hread hfaces hdepth => ?_
  have hmore : more.length < ts.length :=
    Form.length_lt_of_read (by simp) hread
  have htail := follows_tail n left (by omega)
    (fun ts' hts' => hoperand ts' (hts'.trans hmore).le) last hfaces
  rw [hdepth] at htail
  exact htail.restore

end Chains

/-! ## Operands -/

section Operands

/-- No item is the integer whose negative is none. -/
def Negatable (items : List Item) : Prop :=
  ∀ t, .token t ∈ items → t.kind ≠ .int Int64.minValue

theorem Faces.mem {pos : Nat} (h : Faces items ctx pos (t :: ts)) :
    .token t ∈ items :=
  List.mem_of_getElem? h.getElem?

theorem descend_andThen_done {α β : Type} (fault : Fault) (read : Reader α)
    (f : α → β) (budget : Nat) :
    Reader.descend fault (read.andThen fun a => Reader.done (f a)) budget =
      (Reader.descend fault read budget).map f := by
  cases budget <;> rfl

theorem follows_unary {operand primary : Step Node} (hitems : Negatable items)
    (hoperand : ∀ more : List Token, more.length < ts.length →
      Follows items ctx .unary operand more)
    (hprimary : Follows items ctx .primary primary ts) :
    Follows items ctx .unary (unary items operand primary) ts := by
  intro st h
  rw [unary, bind_of_done (peek_apply h)]
  by_cases hminus : Toy.peek ts = some .minus
  · obtain ⟨minus, rest, rfl, hkind⟩ := exists_of_peek_eq hminus
    have hnext :
        Faces items ctx ({ st with pos := st.pos + 1 } : Cursor).pos rest :=
      h.next
    rw [if_pos hminus, bind_of_done (advance_token h),
      bind_of_done (peek_apply hnext)]
    generalize hfirst : Toy.peek rest = first
    split
    · next value =>
        obtain ⟨t, more, rfl, hint⟩ := exists_of_peek_eq hfirst
        have hnode : negated? minus t = some (.mk "int" [.atom (.int (-value))]
            (some (minus.spanTo t.stop))) := by simp [negated?, hint]
        have hvalue : value ≠ Int64.minValue :=
          fun heq => hitems t hnext.mem (by rw [hint, heq])
        rw [read_negative_literal hkind hnode,
          bind_of_done (advance_token hnext),
          bind_of_done (negative_apply hvalue)]
        exact ⟨_, _, rfl, rfl, hnext.next, rfl, rfl⟩
    · next value =>
        obtain ⟨t, more, rfl, hfloat⟩ := exists_of_peek_eq hfirst
        have hnode :
            negated? minus t = some (.mk "float" [.atom (.float value.neg)]
              (some (minus.spanTo t.stop))) := by simp [negated?, hfloat]
        rw [read_negative_literal hkind hnode,
          bind_of_done (advance_token hnext)]
        exact ⟨_, _, rfl, rfl, hnext.next, rfl, rfl⟩
    · next hint hfloat =>
        have hnumber : ∀ kind ∈ Toy.peek rest, ¬ IsNumber kind := by
          intro kind hpeek hnumber
          rw [hfirst] at hpeek
          cases hpeek
          cases kind with
          | int value => exact hint value rfl
          | float value => exact hfloat value rfl
          | _ => exact hnumber
        rw [read_negation hkind hnumber, descend_andThen_done]
        exact (matches_nested hnext (hoperand rest (Nat.lt_succ_self _)
          ⟨st.pos + 1, st.locals, st.depth + 1⟩ hnext)).map
  · rw [if_neg hminus, read_unary_primary hminus]
    exact hprimary st h

theorem read_primary_nil {locals : List String} :
    Form.primary.read ctx locals [] =
    fun _ => .error (ctx.faultAt [] (.unexpectedToken none)) := by
  funext budget
  simp only [Form.read]
  rw [Toy.primary]
  rfl

theorem matches_rejectAt {pos : Nat} (h : Faces items ctx pos ts)
    (found : Option TokenKind) :
    Matches items ctx (· = ·) st.depth
      ((rejectAt items pos found : Step Node) st)
      (.error (ctx.faultAt ts (.unexpectedToken found))) := by
  have hback : Faces items ctx ({ st with pos } : Cursor).pos ts := h
  exact ends_reject hback _

theorem matches_identifier {call : Step (List Node × Nat)} {name : String}
    (hname : t.kind = .ident name)
    (hcall : ∀ more : List Token, more.length ≤ rest.length →
      Follows items ctx (.items .call) call more)
    (h : Faces items ctx st.pos rest) :
    Matches items ctx (· = ·) st.depth (identifier items call t name st)
      (Form.primary.read ctx st.locals (t :: rest)
        (maxNesting - st.depth)) := by
  rw [identifier, bind_of_done (peek_apply h)]
  by_cases hparen : Toy.peek rest = some .leftParen
  · obtain ⟨paren, inner, rfl, hkind⟩ := exists_of_peek_eq hparen
    rw [if_pos hparen, bind_of_done (advance_token h), read_call hname hkind]
    exact (hcall inner (Nat.le_succ _) ⟨st.pos + 1, st.locals, st.depth⟩
      h.next).map
  · rw [if_neg hparen, bind_of_done state_apply, read_name hname hparen]
    exact matches_done h

theorem matches_parenthesized {group : Step (List Node × Nat)} {n : Nat}
    (hparen : t.kind = .leftParen) (hn : rest.length < n)
    (hgroup : ∀ more : List Token, more.length ≤ rest.length →
      Follows items ctx (.items .group) group more)
    (h : Faces items ctx st.pos rest) :
    Matches items ctx (· = ·) st.depth (parenthesized items group t n st)
      (Form.primary.read ctx st.locals (t :: rest)
        (maxNesting - st.depth)) := by
  obtain ⟨pos, hskip, hfaces⟩ := skipSeparators_apply h hn
  rw [parenthesized, bind_of_done hskip, read_group hparen]
  exact (hgroup _ (Toy.skipSeparators rest).property ⟨pos, st.locals, st.depth⟩
    hfaces).map

theorem follows_primary {group call : Step (List Node × Nat)} {n : Nat}
    (hn : ts.length ≤ n)
    (hgroup : ∀ more : List Token, more.length < ts.length →
      Follows items ctx (.items .group) group more)
    (hcall : ∀ more : List Token, more.length < ts.length →
      Follows items ctx (.items .call) call more) :
    Follows items ctx .primary
      (primary items ctx.identification group call n) ts := by
  intro st h
  rw [primary, bind_of_done state_apply]
  cases ts with
  | nil =>
      rw [bind_of_done (advance_stop h), read_primary_nil]
      exact matches_rejectAt h none
  | cons t rest =>
      have hnext :
          Faces items ctx ({ st with pos := st.pos + 1 } : Cursor).pos rest :=
        h.next
      have hliteral :
          literal? ⟨ctx.identification, t.start⟩ t = literal? ctx t := rfl
      rw [bind_of_done (advance_token h)]
      dsimp only
      rw [hliteral]
      cases hfound : literal? ctx t with
      | some node =>
          rw [read_literal hfound]
          exact ⟨_, _, rfl, rfl, hnext, rfl, rfl⟩
      | none =>
          dsimp only
          generalize hkind : t.kind = kind
          split
          · next name =>
              exact matches_identifier hkind
                (fun more hmore => hcall more (Nat.lt_succ_of_le hmore)) hnext
          · exact matches_parenthesized hkind hn
              (fun more hmore => hgroup more (Nat.lt_succ_of_le hmore)) hnext
          · next hname hparen =>
              rw [read_primary_unexpected hfound (hkind ▸ hname)
                (hkind ▸ hparen), hkind]
              exact matches_rejectAt h _

end Operands

end Cursor

end Reparse.Toy
