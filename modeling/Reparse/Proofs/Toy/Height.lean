import Reparse.Proofs.Toy.Reread
import Mathlib.Order.Bounds.Basic

/-!
# How high parsed trees are

The nesting limit bounds the levels that are open at one time.  A chain gives
its levels back at its end, so the operators of a product and of the sum around
it count once for the limit and both for the tree: under one statement of `n`
levels lies a tree of height `n ^ 2`, and no higher one.  With the node that
holds several statements, the greatest height of a parsed tree is one more than
the square of the limit.
-/

namespace Reparse

mutual

theorem Node.height_withoutSpans : ∀ n : Node, n.withoutSpans.height = n.height
  | .mk _ children _ =>
      congrArg (· + 1) (Child.heightList_withoutSpans children)

theorem Child.height_withoutSpans :
    ∀ c : Child, c.withoutSpans.height = c.height
  | .node n => n.height_withoutSpans
  | .atom _ => rfl

theorem Child.heightList_withoutSpans :
    ∀ cs : List Child, Child.heightList (Child.withoutSpansList cs) =
      Child.heightList cs
  | [] => rfl
  | c :: cs => by
      rw [Child.withoutSpansList, Child.heightList, Child.heightList,
        c.height_withoutSpans,
        Child.heightList_withoutSpans cs]

end

theorem Child.heightList_nodes_le {nodes : List Node} {bound : Nat}
    (hnodes : ∀ node ∈ nodes, node.height ≤ bound) :
    Child.heightList (nodes.map .node) ≤ bound := by
  induction nodes with
  | nil => exact Nat.zero_le _
  | cons node nodes ih =>
      have hnode := hnodes node List.mem_cons_self
      have hmore := ih fun n hn => hnodes n (List.mem_cons_of_mem node hn)
      exact Nat.max_le.mpr ⟨hnode, hmore⟩

/-- The nodes on the longest way down; none in a tree without a root. -/
def Tree.height (tree : Tree) : Nat :=
  (tree.root.map Node.height).getD 0

namespace Toy

/-! ## Heights within a cost -/

/-- The greatest height of an operand of the tier. -/
def Tier.operandHeight : Tier → Nat → Nat
  | .sum, cost => cost ^ 2 + 1 + cost
  | .product, cost => cost ^ 2 + 1

theorem Tier.operandHeight_mono (tier : Tier) {cost cost' : Nat}
    (hle : cost ≤ cost') :
    tier.operandHeight cost ≤ tier.operandHeight cost' := by
  have hsquare := Nat.pow_le_pow_left hle 2
  cases tier with
  | sum =>
      simp only [operandHeight]
      omega
  | product =>
      simp only [operandHeight]
      omega

/-- What a form reads within a cost is not higher than the cost allows. -/
def Form.Bounded : (form : Form) → form.Result → Nat → Prop
  | .statement, node, cost => node.height ≤ cost ^ 2
  | .chain tier, node, cost => node.height ≤ tier.operandHeight cost + cost
  | .operand tier, node, cost => node.height ≤ tier.operandHeight cost
  | .tail tier left, node, cost =>
    node.height ≤ max left.height (tier.operandHeight cost) + cost
  | .unary, node, cost | .primary, node, cost => node.height ≤ cost ^ 2 + 1
  | .items _, result, cost => ∀ node ∈ result.1, node.height ≤ cost ^ 2

section Shapes

variable {node left right : Node} {nodes : List Node} {name : String}
variable {span : Option Span}
variable {bound : Nat}

theorem height_assign :
    (Node.mk "lvasgn" [symbol name, .node node] span).height =
      node.height + 1 := by
  simp [Node.height, Child.heightList, Child.height, symbol]

theorem height_negate :
    (Node.mk "send" [.node node, symbol name] span).height =
      node.height + 1 := by
  simp [Node.height, Child.heightList, Child.height, symbol]

theorem height_binary (op : Operator) :
    (binary left op right).height = max left.height right.height + 1 := by
  simp [binary, Node.height, Child.heightList, Child.height, symbol]

theorem height_call_le (hnodes : ∀ node ∈ nodes, node.height ≤ bound) :
    (Node.mk "send" (.atom .nil :: symbol name :: nodes.map .node)
      span).height ≤ bound + 1 := by
  have hlist := Child.heightList_nodes_le hnodes
  simpa [Node.height, Child.heightList, Child.height, symbol] using hlist

theorem height_begin_le (hnodes : ∀ node ∈ nodes, node.height ≤ bound) :
    (Node.mk "begin" (nodes.map .node) span).height ≤ bound + 1 :=
  Nat.succ_le_succ (Child.heightList_nodes_le hnodes)

theorem height_collapse_le (hnodes : ∀ node ∈ nodes, node.height ≤ bound) :
    ((collapse? nodes).getD (.mk "begin" [] span)).height ≤ bound + 1 := by
  match nodes, hnodes with
  | [], hnodes => exact height_begin_le hnodes
  | [node], hnodes => exact Nat.le_succ_of_le (hnodes node List.mem_cons_self)
  | _ :: _ :: _, hnodes => exact height_begin_le hnodes

theorem height_nameNode (locals : List String) (span : Span) :
    (nameNode locals name span).height = 1 := by
  unfold nameNode
  split <;> simp [Node.height, Child.heightList, Child.height, symbol]

theorem height_leaf (kind : String) (atoms : List Atom) :
    (Node.mk kind (atoms.map .atom) span).height = 1 := by
  have hlist : Child.heightList (atoms.map .atom) = 0 := by
    induction atoms with
    | nil => simp [Child.heightList]
    | cons atom atoms ih => simp [Child.heightList, Child.height, ih]
  rw [Node.height, hlist]

theorem height_literal {ctx : Context} {t : Token}
    (hnode : literal? ctx t = some node) :
    node.height = 1 := by
  unfold literal? at hnode
  cases hshape : t.kind with
  | bool value =>
      rw [hshape] at hnode
      cases value with
      | false =>
          cases hnode
          exact height_leaf "false" []
      | true =>
          cases hnode
          exact height_leaf "true" []
  | nil =>
      rw [hshape] at hnode
      cases hnode
      exact height_leaf "nil" []
  | _ =>
      rw [hshape] at hnode
      first
        | cases hnode
          done
        | cases hnode
          exact height_leaf _ [_]

theorem height_negated {minus t : Token}
    (hnode : negated? minus t = some node) :
    node.height = 1 := by
  unfold negated? at hnode
  split at hnode
  · cases hnode
    exact height_leaf "int" [_]
  · cases hnode
    exact height_leaf "float" [_]
  · cases hnode

end Shapes

/-- A tree is no higher than what its reading costs allows: the square of the
levels for a statement, and on top of an operand one more for each operator of
its chain. -/
theorem Derives.bounded {ctx : Context} {form : Form}
    {locals locals' : List String} {ts rest : List Token}
    {result : form.Result} {cost : Nat}
    (hderives : Derives ctx form locals ts result locals' rest cost) :
    form.Bounded result cost := by
  induction hderives with
  | @assignment _ _ _ _ _ _ _ value cost _ _ _ ih =>
      have hvalue : value.height ≤ cost ^ 2 := ih
      have hsquare : (cost + 1) ^ 2 = cost ^ 2 + 2 * cost + 1 := by ring
      simp only [Form.Bounded, height_assign, hsquare]
      omega
  | @expression _ _ _ _ node cost _ _ ih =>
      have hchain : node.height ≤ cost ^ 2 + 1 + cost + cost := ih
      have hsquare : (cost + 1) ^ 2 = cost ^ 2 + 2 * cost + 1 := by ring
      simp only [Form.Bounded, hsquare]
      omega
  | @chain tier _ _ _ _ _ _ left node cost cost' _ _ ihLeft ihTail =>
      have hleft : left.height ≤ tier.operandHeight cost := ihLeft
      have htail :
          node.height ≤ max left.height (tier.operandHeight cost') + cost' :=
        ihTail
      have hmono := tier.operandHeight_mono (Nat.le_max_left cost cost')
      have hmono' := tier.operandHeight_mono (Nat.le_max_right cost cost')
      simp only [Form.Bounded]
      omega
  | operandSum _ ih => exact ih
  | operandProduct _ ih => exact ih
  | tailEnd _ => exact Nat.le_max_left _ _
  | @tailOperator tier left right node _ _ _ _ _ _ _ _ cost cost'
        _ _ _ _ ihRight ihTail =>
      -- The operator is one node higher than its operands, and one level
      -- deeper than what follows it.
      have hright : right.height ≤ tier.operandHeight cost := ihRight
      have htail := ihTail
      simp only [Form.Bounded, height_binary] at htail ⊢
      have hmono := tier.operandHeight_mono
        (Nat.le_succ_of_le (Nat.le_max_left cost cost'))
      have hmono' := tier.operandHeight_mono
        (Nat.le_succ_of_le (Nat.le_max_right cost cost'))
      rw [Nat.succ_eq_add_one] at hmono hmono'
      omega
  | negativeLiteral _ hnode => exact (height_negated hnode).le
  | @negation _ node _ _ _ _ cost _ _ _ ih =>
      have hoperand : node.height ≤ cost ^ 2 + 1 := ih
      have hsquare : (cost + 1) ^ 2 = cost ^ 2 + 2 * cost + 1 := by ring
      simp only [Form.Bounded, height_negate, hsquare]
      omega
  | unsigned _ _ ih => exact ih
  | literal hnode => exact (height_literal hnode).le
  | name _ _ => exact (height_nameNode _ _).le
  | call _ _ _ ih => exact height_call_le ih
  | group _ _ ih => exact height_collapse_le ih
  | itemsEnd _ => simp [Form.Bounded]
  | itemsLast _ _ _ ih => simpa [Form.Bounded] using ih
  | @itemsMore _ _ _ _ _ _ _ _ node nodes _ cost cost' _ _ _ _ ihItem
        ihItems =>
      have hitem : node.height ≤ cost ^ 2 := ihItem
      have hitems : ∀ n ∈ nodes, n.height ≤ cost' ^ 2 := ihItems
      intro n hn
      rcases List.mem_cons.mp hn with rfl | hn
      · exact hitem.trans (Nat.pow_le_pow_left (Nat.le_max_left _ _) 2)
      · exact (hitems n hn).trans
          (Nat.pow_le_pow_left (Nat.le_max_right _ _) 2)

theorem DerivesProgram.bounded {ctx : Context} {locals locals' : List String}
    {ts : List Token} {nodes : List Node} {cost : Nat}
    (hderives : DerivesProgram ctx locals ts nodes locals' cost) :
    ∀ node ∈ nodes, node.height ≤ cost ^ 2 := by
  induction hderives with
  | nil => simp
  | last hstatement => simpa [Form.Bounded] using hstatement.bounded
  | @more _ _ _ _ _ _ node nodes cost cost' _ hstatement _ ih =>
      have hitem : node.height ≤ cost ^ 2 := hstatement.bounded
      intro n hn
      rcases List.mem_cons.mp hn with rfl | hn
      · exact hitem.trans (Nat.pow_le_pow_left (Nat.le_max_left _ _) 2)
      · exact (ih n hn).trans (Nat.pow_le_pow_left (Nat.le_max_right _ _) 2)

theorem height_le_of_parse {keep : Bool} {source : Source}
    {identification : String} {tree : Tree}
    (hparse : parse keep source identification = .ok tree) :
    tree.height ≤ maxNesting ^ 2 + 1 := by
  obtain ⟨lexed, nodes, -, hread, rfl⟩ := parse_eq_ok hparse
  obtain ⟨locals', cost, hcost, hprogram⟩ := derivesProgram_of_statements hread
  have hnodes : ∀ node ∈ nodes, node.height ≤ maxNesting ^ 2 :=
    fun node hnode =>
      (hprogram.bounded node hnode).trans (Nat.pow_le_pow_left hcost 2)
  have hroot :
      ((collapse? nodes).getD (.mk "begin" [] none)).height ≤
        maxNesting ^ 2 + 1 :=
    height_collapse_le hnodes
  unfold Tree.height
  cases hcollapse : collapse? nodes with
  | none => exact Nat.zero_le _
  | some root =>
      rw [hcollapse] at hroot
      exact hroot

/-! ## Trees of the greatest height -/

namespace Expr

/-- An expression with so many ones behind it, each after the operator. -/
def appendOnes (op : Operator) : Nat → Expr → Expr
  | 0, e => e
  | n + 1, e => infixed (appendOnes op n e) op (int 1)

/-- Every story is the argument of a call, at the left end of a product and of
a sum that are as long as the nesting of the argument allows. -/
def tower : Nat → Expr
  | 0 => int 1
  | n + 1 =>
      appendOnes .plus (n + 1) (appendOnes .times (n + 1) (call "f" [tower n]))

section Ones

variable {op : Operator} {e : Expr}

theorem level_appendOnes (n : Nat) (hlevel : op.tier.level ≤ e.level) :
    op.tier.level ≤ (appendOnes op n e).level := by
  cases n with
  | zero => exact hlevel
  | succ n => exact Nat.le_refl _

theorem spine_appendOnes (n : Nat) (hspine : e.spine op.tier = 0) :
    (appendOnes op n e).spine op.tier = n := by
  induction n with
  | zero => exact hspine
  | succ n ih => rw [appendOnes, spine, if_pos rfl, ih]

/-- Ones behind an expression of a higher tier open as many levels as they
are. -/
theorem nesting_appendOnes (n : Nat) (hlevel : op.tier.level ≤ e.level)
    (hspine : e.spine op.tier = 0) :
    (appendOnes op n e).nesting = max e.nesting n := by
  induction n with
  | zero => exact (Nat.max_zero _).symm
  | succ n ih =>
      have hleft : ¬ (appendOnes op n e).level < op.tier.level :=
        Nat.not_lt.mpr (level_appendOnes n hlevel)
      have hright : ¬ (int 1).level < op.tier.level + 1 := by
        cases op <;> decide
      rw [appendOnes, nesting, ih, spine_appendOnes n hspine]
      simp only [hleft, hright, decide_false, wrapNesting, nesting,
        Bool.false_eq_true, if_false]
      omega

theorem height_appendOnes (n : Nat) (hheight : 0 < e.toNode.height) :
    (appendOnes op n e).toNode.height = e.toNode.height + n := by
  induction n with
  | zero => rfl
  | succ n ih =>
      have hone : (int 1).toNode.height = 1 := rfl
      rw [appendOnes, toNode]
      simp only [Node.bare, Node.height, Child.heightList, Child.height, ih,
        hone]
      omega

theorem scoped_appendOnes (n : Nat) {locals : List String}
    (hscoped : e.Scoped locals) :
    (appendOnes op n e).Scoped locals := by
  induction n with
  | zero => exact hscoped
  | succ n ih =>
      refine ⟨ih, ?_⟩
      unfold Scoped
      decide

theorem failure?_appendOnes (n : Nat) :
    (appendOnes op n e).failure? = e.failure? := by
  induction n with
  | zero => rfl
  | succ n ih =>
      have hone : (int 1).failure? = none := rfl
      rw [appendOnes, failure?_infixed, ih, hone, Option.or_none]

end Ones

theorem isName_f : isName "f" = true := by decide

theorem nesting_tower (n : Nat) : (tower n).nesting = n := by
  induction n with
  | zero => rfl
  | succ n ih =>
      have hcall : (call "f" [tower n]).nesting = n + 1 := by
        rw [nesting, nestingList, nestingList, ih, Nat.max_zero]
      have hproduct :
          (appendOnes .times (n + 1) (call "f" [tower n])).nesting =
            n + 1 := by
        have hlevel : Operator.times.tier.level ≤ (call "f" [tower n]).level :=
          Nat.le_add_left 2 2
        rw [nesting_appendOnes _ hlevel rfl, hcall, Nat.max_self]
      have hlevel : Operator.plus.tier.level ≤
          (appendOnes .times (n + 1) (call "f" [tower n])).level :=
            Nat.le_succ 1
      rw [tower, nesting_appendOnes _ hlevel rfl, hproduct, Nat.max_self]

theorem height_tower (n : Nat) : (tower n).toNode.height = (n + 1) ^ 2 := by
  induction n with
  | zero => rfl
  | succ n ih =>
      have hcall : (call "f" [tower n]).toNode.height = (n + 1) ^ 2 + 1 := by
        rw [toNode, toNodes, toNodes]
        simp [Node.bare, Node.height, Child.heightList, Child.height, ih]
      have hproduct :
          (appendOnes .times (n + 1) (call "f" [tower n])).toNode.height =
          (n + 1) ^ 2 + 1 + (n + 1) := by
        rw [height_appendOnes _ (by omega), hcall]
      rw [tower, height_appendOnes _ (by omega), hproduct]
      ring

theorem scoped_tower (n : Nat) : (tower n).Scoped [] := by
  induction n with
  | zero =>
      unfold tower Scoped
      decide
  | succ n ih =>
      apply scoped_appendOnes
      apply scoped_appendOnes
      exact ⟨isName_f, ih, trivial⟩

theorem failure?_tower (n : Nat) : (tower n).failure? = none := by
  induction n with
  | zero => rfl
  | succ n ih =>
      rw [tower, failure?_appendOnes, failure?_appendOnes,
        failure?_call isName_f,
        failureList?_cons, ih]
      rfl

end Expr

/-- The text of statements that have a spelling and open no more levels than
the limit is a source of these statements. -/
theorem exists_parse_of_scoped {es : List Expr}
    (hscoped : Expr.ScopedList [] es) (hspelled : Expr.failureList? es = none)
    (hlimit : Expr.nestingList es ≤ maxNesting) (keep : Bool)
    (identification : String) :
    ∃ source tree, parse keep source identification = .ok tree ∧
      tree.root.map Node.withoutSpans = rootOf es := by
  have hwritable := Expr.writableList_of_scoped hscoped
  rcases Expr.outcomeList_of_writable [] hwritable with
    ⟨error, herror, -⟩ | ⟨-, lists, -, hspells⟩
  · rw [hspelled] at herror
    cases herror
  have hnative := Expr.nativeList_of_writable hwritable hspelled
  have hcomments : ∀ comment ∈ ([] : List Comment), Comment.Sound comment := by
    simp
  obtain ⟨nodes, found, hnodes, -, hread, -⟩ :=
    readProgram_lines hscoped hnative hspells hcomments .utf8 identification
  have hprogram := hread hlimit
  refine ⟨.ofText (joinWith ['\n'] (lists ++ [].map commentLine)),
    ⟨collapse? nodes, if keep then some found else none⟩, ?_,
    withoutSpans_collapse? hnodes⟩
  have htext : ∀ s : List Char, (Source.ofText s).text = s :=
    Text.Utf8.decodeLossy_encode
  have hencoding : ∀ s : List Char, (Source.ofText s).encoding = .utf8 :=
    fun _ => rfl
  unfold parse
  rw [htext, hencoding, hprogram]

/-- A tower with another statement behind it, so that both get a node above
them. -/
theorem exists_parse_tower {n : Nat} (hn : n < maxNesting) (keep : Bool)
    (identification : String) :
    ∃ source tree, parse keep source identification = .ok tree ∧
      tree.height = (n + 1) ^ 2 + 1 := by
  have hone : ∀ locals, (Expr.int 1).Scoped locals := by
    intro locals
    unfold Expr.Scoped
    decide
  have hscoped : Expr.ScopedList [] [Expr.tower n, .int 1] :=
    ⟨Expr.scoped_tower n, hone _, trivial⟩
  have hspelled : Expr.failureList? [Expr.tower n, .int 1] = none := by
    rw [Expr.failureList?_cons, Expr.failure?_tower]
    rfl
  have hnesting : Expr.nestingList [Expr.tower n, .int 1] = n + 1 := by
    simp [Expr.nestingList, Expr.nesting_tower, Expr.nesting]
  obtain ⟨source, tree, hparse, hroot⟩ :=
    exists_parse_of_scoped hscoped hspelled (hnesting.trans_le hn) keep
      identification
  refine ⟨source, tree, hparse, ?_⟩
  obtain ⟨root, hsome, hnode⟩ := Option.map_eq_some_iff.mp hroot
  have hheight :
      root.height = (Expr.group [Expr.tower n, .int 1]).toNode.height := by
    rw [← hnode, Node.height_withoutSpans]
  have hgroup : (Expr.group [Expr.tower n, .int 1]).toNode =
      .bare "begin" [.node (Expr.tower n).toNode,
        .node (Expr.int 1).toNode] := by
    simp [Expr.group, Expr.toNode, Expr.toNodes]
  have hleaf : (Expr.int 1).toNode.height = 1 := rfl
  unfold Tree.height
  rw [hsome, Option.map_some, Option.getD_some, hheight, hgroup]
  simp only [Node.bare, Node.height, Child.heightList, Child.height,
    Expr.height_tower, hleaf]
  have hpos : 0 < (n + 1) ^ 2 := by positivity
  omega

/-- The greatest height of a parsed tree is one more than the square of the
nesting limit. -/
theorem isGreatest_height (keep : Bool) (identification : String) :
    IsGreatest {height | ∃ source tree, parse keep source identification =
      .ok tree ∧
      tree.height = height} (maxNesting ^ 2 + 1) := by
  constructor
  · have hlast : maxNesting - 1 < maxNesting := by decide
    exact exists_parse_tower hlast keep identification
  · rintro height ⟨source, tree, hparse, rfl⟩
    exact height_le_of_parse hparse

/-- A product of as many operators as the limit allows but one, and a sum of it
and one more. -/
def productThenSum : List Char :=
  "1".toList ++ (List.replicate 255 " * 1".toList).flatten ++ " + 1".toList

/-- Chains of two tiers are enough for a tree that is higher than the limit. -/
theorem height_productThenSum :
    ∃ tree, parse true (.ofText productThenSum) "input" = .ok tree ∧
      tree.height = maxNesting + 1 := by
  have hread :
      (parse true (.ofText productThenSum) "input").toOption.map Tree.height =
        some 257 := by
    decide +kernel
  exact exists_parse_of_map hread

end Toy
end Reparse
