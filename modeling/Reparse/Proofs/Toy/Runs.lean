import Reparse.Proofs.Toy.Stepping

/-!
# Runs of the parser by positions

The two loops of the parser end where a list closes, or at the mark.  With
their readers tied together the parser by positions follows every reader, as
soon as it is granted eight rounds for each token left and a few more.
-/

namespace Reparse.Toy

namespace Cursor

open Text Checked

variable {items : List Item} {ctx : Context} {st : Cursor}
variable {ts rest : List Token} {t : Token}
variable {item : Step Node} {n : Nat}

/-! ## Lists in parentheses -/

section Lists

variable {bracket : Bracket} {node : Node} {depth : Nat}

/-- A loop has stopped in front of the parenthesis that closes what is read. -/
def Closes (items : List Item) (ctx : Context) (depth : Nat)
    (nodes : List Node) (st : Cursor)
    (out : (List Node × Nat) × List String × List Token) : Prop :=
  nodes = out.1.1 ∧ st.locals = out.2.1 ∧ depth = st.depth ∧
    ∃ close, close.stop = out.1.2 ∧ Faces items ctx st.pos (close :: out.2.2)

theorem matches_closed {list : Step (List Node)}
    {result : Except Fault ((List Node × Nat) × List String × List Token)}
    (hlist : Ends items depth (Closes items ctx depth) (list st) result) :
    Matches items ctx (· = ·) depth (closed items list st) result := by
  cases result with
  | error fault =>
      obtain ⟨last, hfault, hbounds⟩ := hlist
      exact ⟨last, bind_of_fault hfault, hbounds⟩
  | ok out =>
      obtain ⟨nodes, last, hdone, hnodes, hlocals, hdepth, close, hstop,
        hfaces⟩ := hlist
      refine ⟨out.1, { last with pos := last.pos + 1 }, ?_, rfl, hfaces.next,
        hlocals, hdepth⟩
      rw [closed, bind_of_done hdone, bind_of_done (advance_token hfaces),
        hnodes]
      exact congrArg (Outcome.done · _) (Prod.ext rfl hstop)

theorem ends_cons {list : Step (List Node)}
    {result : Except Fault ((List Node × Nat) × List String × List Token)}
    (hlist : Ends items depth (Closes items ctx depth) (list st) result) :
    Ends items depth (Closes items ctx depth)
      ((do let more ← list; pure (node :: more) : Step (List Node)) st)
      (result.map fun out => ((node :: out.1.1, out.1.2), out.2)) :=
  endsAs_map hlist fun _ _ _ hout => ⟨congrArg (node :: ·) hout.1, hout.2⟩

/-- After an item the list closes, or the loop goes on behind a mark, or the
item in front is rejected. -/
theorem ends_afterItem {outcome : Outcome Cursor (List Node)}
    (h : Faces items ctx st.pos rest)
    (hclose : Toy.peek rest = some .rightParen → outcome = .done [node] st)
    (hmark : ∀ t more, rest = t :: more → t.kind = bracket.mark →
      Ends items st.depth (Closes items ctx st.depth) outcome
        (((Form.items bracket).read ctx st.locals (bracket.skip more)
          (maxNesting - st.depth)).map
            fun out => ((node :: out.1.1, out.1.2), out.2)))
    (hother : Toy.peek rest ≠ some .rightParen →
      Toy.peek rest ≠ some bracket.mark →
      outcome = reject items (bracket.cause (Toy.peek rest)) st) :
    Ends items st.depth (Closes items ctx st.depth) outcome
      (afterItem ctx bracket (node, st.locals, rest)
        (maxNesting - st.depth)) := by
  cases rest with
  | nil =>
      rw [hother (by simp [Toy.peek]) (by simp [Toy.peek])]
      exact ends_reject h _
  | cons t more =>
      unfold afterItem
      dsimp only
      by_cases hparen : t.kind = .rightParen
      · rw [hclose (congrArg some hparen), if_pos hparen]
        exact ⟨[node], st, rfl, rfl, rfl, rfl, t, rfl, h⟩
      by_cases hkind : t.kind = bracket.mark
      · rw [if_neg hparen, if_pos hkind]
        exact hmark t more rfl hkind
      · rw [hother (by simpa [Toy.peek] using hparen)
          (by simpa [Toy.peek] using hkind),
          if_neg hparen, if_neg hkind]
        exact ends_reject h _

/-- A list is closed, or its first item is read and the loop goes on after
it. -/
theorem ends_items {loop : Step (List Node)} {after : Node → Step (List Node)}
    (hitem : Follows items ctx .statement item ts)
    (h : Faces items ctx st.pos ts)
    (hclosed : Toy.peek ts = some .rightParen → loop st = .done [] st)
    (hopen : Toy.peek ts ≠ some .rightParen → loop st = (item >>= after) st)
    (hafter : ∀ node last rest, rest.length < ts.length →
      Faces items ctx last.pos rest →
      Ends items last.depth (Closes items ctx last.depth) (after node last)
        (afterItem ctx bracket (node, last.locals, rest)
          (maxNesting - last.depth))) :
    Ends items st.depth (Closes items ctx st.depth) (loop st)
      ((Form.items bracket).read ctx st.locals ts
        (maxNesting - st.depth)) := by
  by_cases hclose : Toy.peek ts = some .rightParen
  · obtain ⟨t, rest, rfl, hkind⟩ := exists_of_peek_eq hclose
    rw [hclosed hclose, read_items_end hkind]
    exact ⟨[], st, rfl, rfl, rfl, rfl, t, rfl, h⟩
  · rw [hopen hclose, read_items_item hclose]
    refine (hitem st h).bind fun node last rest hread hfaces hdepth => ?_
    rw [← hdepth]
    exact hafter node last rest (Form.length_lt_of_read (by simp) hread) hfaces

theorem ends_group (hn : ts.length < n)
    (hitem : ∀ more : List Token, more.length ≤ ts.length →
      Follows items ctx .statement item more) (h : Faces items ctx st.pos ts) :
    Ends items st.depth (Closes items ctx st.depth)
      (statements items item (some .rightParen) n st)
      ((Form.items .group).read ctx st.locals ts (maxNesting - st.depth)) := by
  induction n generalizing ts st with
  | zero => exact absurd hn (Nat.not_lt_zero _)
  | succ n ih =>
      apply ends_items (hitem ts (Nat.le_refl _)) h
      · intro hclose
        rw [statements, bind_of_done (peek_apply h), if_pos hclose]
        rfl
      · intro hopen
        rw [statements, bind_of_done (peek_apply h), if_neg hopen]
      intro node last rest hlength hfaces
      rw [bind_of_done (peek_apply hfaces)]
      refine ends_afterItem hfaces (fun hparen => ?_)
        (fun t more hrest hkind => ?_) fun hparen hmark => ?_
      · rw [if_pos hparen]
        rfl
      · subst hrest
        have hle := (Toy.skipSeparators more).property
        have hmark : Toy.peek (t :: more) = some .separator :=
          congrArg some hkind
        obtain ⟨pos, hskip, hinner⟩ :=
          skipSeparators_apply hfaces
            (Nat.lt_of_lt_of_le hlength (Nat.le_of_lt_succ hn))
        rw [skipSeparators_cons hkind] at hinner
        have hnext : Faces items ctx ({ last with pos } : Cursor).pos _ :=
          hinner
        rw [List.length_cons] at hlength
        rw [hmark, if_neg (by simp), if_pos rfl, bind_of_done hskip]
        exact ends_cons
          (ih (by omega) (fun inner hshorter => hitem inner (by omega)) hnext)
      · have hmark' : Toy.peek rest ≠ some .separator := hmark
        rw [if_neg hparen, if_neg hmark']
        rfl

theorem ends_call (hn : ts.length < n)
    (hitem : ∀ more : List Token, more.length ≤ ts.length →
      Follows items ctx .statement item more) (h : Faces items ctx st.pos ts) :
    Ends items st.depth (Closes items ctx st.depth) (arguments items item n st)
      ((Form.items .call).read ctx st.locals ts (maxNesting - st.depth)) := by
  induction n generalizing ts st with
  | zero => exact absurd hn (Nat.not_lt_zero _)
  | succ n ih =>
      apply ends_items (hitem ts (Nat.le_refl _)) h
      · intro hclose
        rw [arguments, bind_of_done (peek_apply h), if_pos hclose]
        rfl
      · intro hopen
        rw [arguments, bind_of_done (peek_apply h), if_neg hopen]
      intro node last rest hlength hfaces
      rw [bind_of_done (peek_apply hfaces)]
      refine ends_afterItem hfaces (fun hparen => ?_)
        (fun t more hrest hkind => ?_) fun hparen hmark => ?_
      · rw [hparen, if_neg (by simp), if_pos rfl]
        rfl
      · subst hrest
        have hmark : Toy.peek (t :: more) = some .comma := congrArg some hkind
        have hnext :
            Faces items ctx ({ last with pos := last.pos + 1 } : Cursor).pos
              more :=
          hfaces.next
        rw [List.length_cons] at hlength
        rw [if_pos hmark, bind_of_done (advance_token hfaces)]
        exact ends_cons
          (ih (by omega) (fun inner hshorter => hitem inner (by omega)) hnext)
      · have hmark' : Toy.peek rest ≠ some .comma := hmark
        rw [if_neg hmark', if_neg hparen]
        rfl

end Lists

/-! ## All readers -/

/-- The parser by positions follows every reader. -/
theorem follows_run (hitems : Negatable items) (n : Nat) (form : Form)
    (ts : List Token) (hn : 8 * ts.length + form.rank + 1 < n) :
    Follows items ctx form (run items ctx.identification n form) ts := by
  induction n generalizing form ts with
  | zero => exact absurd hn (Nat.not_lt_zero _)
  | succ n ih =>
      -- A form hands its tokens over to forms of lower rank, and only forms
      -- that are left with fewer tokens are free in their rank.
      have hlower (other : Form) (more : List Token)
          (hrank : other.rank < form.rank) (hle : more.length ≤ ts.length) :
          Follows items ctx other
            (run items ctx.identification n other) more := by
        apply ih
        omega
      have hfewer (other : Form) (more : List Token)
          (hlt : more.length < ts.length) :
          Follows items ctx other
            (run items ctx.identification n other) more := by
        have hrank := other.rank_le
        apply ih
        omega
      have hrounds : ts.length < n := by omega
      cases form with
      | statement =>
          have hchain := hlower (.chain .sum) ts (by decide) (Nat.le_refl _)
          exact follows_statement (hfewer .statement) hchain
      | chain tier =>
          apply follows_chain n hrounds.le
          intro more hmore
          exact hlower (.operand tier) more (by cases tier <;> decide) hmore
      | operand tier =>
          intro st h
          cases tier with
          | sum =>
              rw [read_operand_sum]
              exact hlower (.chain .product) ts (by decide) (Nat.le_refl _) st h
          | product =>
              rw [read_operand_product]
              exact hlower .unary ts (by decide) (Nat.le_refl _) st h
      | tail tier left =>
          exact follows_tail n left hrounds (hfewer (.operand tier))
      | unary =>
          have hprimary := hlower .primary ts (by decide) (Nat.le_refl _)
          exact follows_unary hitems (hfewer .unary) hprimary
      | primary =>
          exact follows_primary hrounds.le (hfewer (.items .group))
            (hfewer (.items .call))
      | items bracket =>
          have hstatement (more : List Token)
              (hmore : more.length ≤ ts.length) :
              Follows items ctx .statement
                (run items ctx.identification n .statement) more :=
            hlower .statement more (Nat.lt_succ_self 6) hmore
          intro st h
          cases bracket with
          | group => exact matches_closed (ends_group hrounds hstatement h)
          | call => exact matches_closed (ends_call hrounds hstatement h)

/-! ## Programs -/

theorem ends_statements (hn : ts.length < n) (hstart : st.depth = 0)
    (hitem : ∀ more : List Token, more.length ≤ ts.length →
      Follows items ctx .statement item more) (h : Faces items ctx st.pos ts) :
    Ends items 0
      (fun nodes last out => nodes = out ∧ Faces items ctx last.pos [])
      (statements items item none n st) (Toy.statements ctx st.locals ts) := by
  induction n generalizing ts st with
  | zero => exact absurd hn (Nat.not_lt_zero _)
  | succ n ih =>
      rw [statements, bind_of_done (peek_apply h)]
      cases ts with
      | nil =>
          rw [statements_nil]
          exact ⟨[], st, rfl, rfl, h⟩
      | cons first more =>
          have hread := hitem (first :: more) (Nat.le_refl _) st h
          rw [if_neg (by simp [Toy.peek]),
            statements_eq_read (List.cons_ne_nil _ _)]
          rw [hstart] at hread
          refine hread.bind fun node last rest hread hfaces hdepth => ?_
          have hlength : rest.length < (first :: more).length :=
            Form.length_lt_of_read (by simp) hread
          rw [bind_of_done (peek_apply hfaces)]
          unfold afterStatement
          cases rest with
          | nil => exact ⟨[node], last, rfl, rfl, hfaces⟩
          | cons t more =>
              rw [if_neg (by simp [Toy.peek])]
              dsimp only
              by_cases hkind : t.kind = .separator
              · have hle := (Toy.skipSeparators more).property
                obtain ⟨pos, hskip, hinner⟩ :=
                  skipSeparators_apply hfaces
                    (Nat.lt_of_lt_of_le hlength (Nat.le_of_lt_succ hn))
                rw [skipSeparators_cons hkind] at hinner
                have hnext :
                    Faces items ctx ({ last with pos } : Cursor).pos _ :=
                  hinner
                rw [List.length_cons] at hlength
                have hmark : Toy.peek (t :: more) = some .separator :=
                  congrArg some hkind
                rw [if_pos hkind, if_pos hmark, bind_of_done hskip]
                have hlevel : ({ last with pos } : Cursor).depth = 0 := hdepth
                have hnodes := ih (by omega) hlevel
                  (fun inner hshorter => hitem inner (by omega)) hnext
                exact endsAs_map hnodes fun _ _ _ hout =>
                  ⟨congrArg (node :: ·) hout.1, hout.2⟩
              · have hmark : Toy.peek (t :: more) ≠ some .separator := by
                  simpa [Toy.peek] using hkind
                rw [if_neg hkind, if_neg hmark, ← hdepth]
                exact ends_reject hfaces _

/-- The parser by positions reads a program as the parser does. -/
theorem ends_program (hitems : Negatable items) (hn : 8 * ts.length + 8 ≤ n)
    (h : Faces items ctx start.pos ts) :
    Ends items 0
      (fun nodes last out => nodes = out ∧ Faces items ctx last.pos [])
      (program items ctx.identification n start)
      (Toy.statements ctx [] (Toy.skipSeparators ts).val) := by
  have hle := (Toy.skipSeparators ts).property
  have hshort : ts.length < n := by omega
  obtain ⟨pos, hskip, hfaces⟩ := skipSeparators_apply h hshort
  have hnext : Faces items ctx (Cursor.mk pos [] 0).pos _ := hfaces
  rw [program, bind_of_done hskip]
  refine ends_statements (by omega) rfl (fun more hmore => ?_) hnext
  exact follows_run hitems n .statement more (by simp only [Form.rank]; omega)

end Cursor

end Reparse.Toy
