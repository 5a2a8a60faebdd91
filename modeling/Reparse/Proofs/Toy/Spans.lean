import Reparse.Proofs.Toy.Layout
import Reparse.Proofs.Toy.Parsed

/-!
# The places of a parsed tree

A node takes up the text from its first token to its last.  What is read below
it comes from tokens in between, in order, so the places of nodes nest like the
nodes do.  Parentheses around a group belong to no node, unless the group is
empty and has nothing else to stand for it.

A node without nodes below it is read from tokens that follow each other
without a separator.  Comments stand in front of separators only, and so
outside of it; an empty group may hold separators and comments.
-/

namespace Reparse

/-- The node is the other one or stands below it. -/
inductive Node.Below : Node → Node → Prop where
  | self {node : Node} : Below node node
  | child {node child root : Node} (hchild : child ∈ root.nodes)
      (hbelow : Below node child) :
      Below node root

def Node.Before (a b : Node) : Prop :=
  ∀ p ∈ a.span, ∀ q ∈ b.span, p.stop ≤ q.start

def Node.IsEmptyGroup (node : Node) : Prop :=
  node.kind = "begin" ∧ node.children = []

def Span.Covers (outer inner : Span) : Prop :=
  outer.start ≤ inner.start ∧ inner.stop ≤ outer.stop

/-- The node has a place, with those of its children in it one after the other.
If it has none, the place holds no comment, but for empty groups. -/
structure Node.Placed (text : List Char) (comments : List Comment)
    (node : Node) : Prop where
  exists_span : ∃ span, node.span = some span ∧ span.IsIn text ∧
    ∀ child ∈ node.nodes, ∃ inner, child.span = some inner ∧ span.Covers inner
  ordered : node.nodes.Pairwise Node.Before
  apart : node.nodes = [] → ¬ node.IsEmptyGroup →
    ∀ comment ∈ comments, ∀ place ∈ comment.span,
    ∀ span ∈ node.span, place.Apart span

/-- All nodes of the tree are placed, and its comments have places as well. -/
structure Tree.Placed (text : List Char) (tree : Tree) : Prop where
  nodes : ∀ root ∈ tree.root, ∀ node : Node, node.Below root →
    node.Placed text (tree.comments.getD [])
  comments : ∀ comment ∈ tree.comments.getD [],
    ∃ span, comment.span = some span ∧ span.IsIn text

namespace Toy

open Text

/-- The nodes of the tree are placed, and the root lies between the offsets. -/
structure Lies (text : List Char) (comments : List Comment) (node : Node)
    (start stop : Nat) : Prop where
  placed : ∀ below : Node, below.Below node → below.Placed text comments
  between :
    ∃ span, node.span = some span ∧ start ≤ span.start ∧ span.stop ≤ stop

/-- The nodes lie between the offsets one after the other. -/
structure LieInRow (text : List Char) (comments : List Comment)
    (nodes : List Node) (start stop : Nat) : Prop where
  lie : ∀ node ∈ nodes, Lies text comments node start stop
  ordered : nodes.Pairwise Node.Before

section Rows

variable {text : List Char} {comments : List Comment} {node : Node}
variable {nodes : List Node}
variable {start middle stop : Nat}

theorem Lies.mono {start' stop' : Nat}
    (hlies : Lies text comments node start stop) (hstart : start' ≤ start)
    (hstop : stop ≤ stop') : Lies text comments node start' stop' := by
  obtain ⟨span, hspan, hfirst, hlast⟩ := hlies.between
  exact ⟨hlies.placed, span, hspan, hstart.trans hfirst, hlast.trans hstop⟩

theorem Lies.exists_span (hlies : Lies text comments node start stop) :
    ∃ span, node.span = some span ∧ span.IsIn text ∧ start ≤ span.start ∧
      span.stop ≤ stop := by
  obtain ⟨span, hspan, hin, -⟩ := (hlies.placed node .self).exists_span
  obtain ⟨span', hspan', hbetween⟩ := hlies.between
  obtain rfl : span = span' := Option.some.inj (hspan.symm.trans hspan')
  exact ⟨span, hspan, hin, hbetween⟩

theorem Lies.le (hlies : Lies text comments node start stop) :
    start ≤ stop := by
  obtain ⟨span, -, hin, hfirst, hlast⟩ := hlies.exists_span
  exact (hfirst.trans hin.start_lt.le).trans hlast

theorem LieInRow.nil : LieInRow text comments [] start stop :=
  ⟨List.forall_mem_nil _, .nil⟩

theorem LieInRow.cons (hfirst : Lies text comments node start middle)
    (hmore : LieInRow text comments nodes middle stop)
    (hstop : middle ≤ stop) :
    LieInRow text comments (node :: nodes) start stop := by
  refine ⟨List.forall_mem_cons.mpr ⟨hfirst.mono le_rfl hstop, ?_⟩,
    List.pairwise_cons.mpr ⟨fun other hother p hp q hq => ?_, hmore.ordered⟩⟩
  · exact fun other hother => (hmore.lie other hother).mono hfirst.le le_rfl
  · obtain ⟨span, hspan, -, hle⟩ := hfirst.between
    obtain ⟨span', hspan', hle', -⟩ := (hmore.lie other hother).between
    obtain rfl := Option.some.inj (hspan.symm.trans hp)
    obtain rfl := Option.some.inj (hspan'.symm.trans hq)
    exact hle.trans hle'

theorem LieInRow.mono {start' : Nat}
    (hrow : LieInRow text comments nodes start stop)
    (hstart : start' ≤ start) : LieInRow text comments nodes start' stop :=
  ⟨fun node hnode => (hrow.lie node hnode).mono hstart le_rfl, hrow.ordered⟩

theorem LieInRow.single (hlies : Lies text comments node start stop) :
    LieInRow text comments [node] start stop :=
  ⟨by simpa using hlies, List.pairwise_singleton _ _⟩

/-- A node over a row that fits into its place. -/
theorem LieInRow.lies {kind : String} {children : List Child} {span : Span}
    (hrow : LieInRow text comments (children.filterMap Child.node?) span.start
      span.stop) (hin : span.IsIn text)
    (hclear : children.filterMap Child.node? = [] →
      ¬ (Node.mk kind children (some span)).IsEmptyGroup →
      Clear comments span.start span.stop) :
    Lies text comments (.mk kind children (some span)) span.start
      span.stop := by
  refine ⟨fun below hbelow => ?_, span, rfl, le_rfl, le_rfl⟩
  cases hbelow with
  | self =>
      refine ⟨⟨span, rfl, hin, fun child hchild => ?_⟩, hrow.ordered,
        fun hnone hgroup => ?_⟩
      · obtain ⟨inner, hinner, hcovers⟩ := (hrow.lie child hchild).between
        exact ⟨inner, hinner, hcovers⟩
      · intro comment hcomment place hplace span' hspan'
        obtain rfl := Option.some.inj hspan'
        exact (hclear hnone hgroup).apart comment hcomment place hplace
  | child hchild hbelow => exact (hrow.lie _ hchild).placed below hbelow

/-- A node with nodes below it may hold comments. -/
theorem LieInRow.over {kind : String} {children : List Child} {span : Span}
    (hnodes : children.filterMap Child.node? = node :: nodes)
    (hrow : LieInRow text comments (node :: nodes) span.start span.stop)
    (hin : span.IsIn text) :
    Lies text comments (.mk kind children (some span)) span.start
      span.stop := by
  refine LieInRow.lies ?_ hin fun hnone => ?_
  · rwa [hnodes]
  · rw [hnodes] at hnone
    cases hnone

/-- The nodes of a row lie between the first and the last of them. -/
theorem LieInRow.within {first last : Node} {between : List Node}
    (hrow : LieInRow text comments (first :: (between ++ [last])) start stop) :
    ∃ a b, first.span = some a ∧ last.span = some b ∧ a.IsIn text ∧
      b.IsIn text ∧
      a.stop ≤ b.start ∧ start ≤ a.start ∧ b.stop ≤ stop ∧
      LieInRow text comments (first :: (between ++ [last])) a.start
        b.stop := by
  obtain ⟨a, ha, hain, hstart, -⟩ :=
    (hrow.lie first List.mem_cons_self).exists_span
  obtain ⟨b, hb, hbin, -, hstop⟩ := (hrow.lie last (by simp)).exists_span
  obtain ⟨hfirst, hothers⟩ := List.pairwise_cons.mp hrow.ordered
  have hlast := (List.pairwise_append.mp hothers).2.2
  refine ⟨a, b, ha, hb, hain, hbin, hfirst last (by simp) a ha b hb,
    hstart, hstop,
    fun node hnode => ?_, hrow.ordered⟩
  obtain ⟨span, hspan, hin, -, -⟩ := (hrow.lie node hnode).exists_span
  refine ⟨(hrow.lie node hnode).placed, span, hspan, ?_, ?_⟩
  · rcases List.mem_cons.mp hnode with rfl | hmem
    · obtain rfl := Option.some.inj (ha.symm.trans hspan)
      exact le_rfl
    · exact hain.start_lt.le.trans (hfirst node hmem a ha span hspan)
  · have hbefore : ∀ p ∈ node.span, node.Before last → p.stop ≤ b.stop :=
      fun p hp hbefore => (hbefore p hp b hb).trans hbin.start_lt.le
    rcases List.mem_cons.mp hnode with rfl | hmem
    · exact hbefore span hspan (hfirst last (by simp))
    rcases List.mem_append.mp hmem with hmem | hmem
    · exact hbefore span hspan
        (hlast node hmem last (List.mem_singleton_self _))
    · obtain rfl := List.mem_singleton.mp hmem
      obtain rfl := Option.some.inj (hb.symm.trans hspan)
      exact le_rfl

/-- A node that reaches from the first of its children to the last. -/
theorem LieInRow.cover {kind : String} {children : List Child}
    {first last : Node} {between : List Node}
    (hnodes : children.filterMap Child.node? = first :: (between ++ [last]))
    (hrow : LieInRow text comments (first :: (between ++ [last])) start stop) :
    Lies text comments (.mk kind children (covering first last)) start
      stop := by
  obtain ⟨a, b, ha, hb, hain, hbin, hle, hstart, hstop, hwithin⟩ := hrow.within
  have hcovering : covering first last = some ⟨a.start, b.stop, a.line⟩ := by
    rw [covering, ha, hb]
  have hplace : (Span.mk a.start b.stop a.line).IsIn text :=
    ⟨(hain.start_lt.trans_le hle).trans hbin.start_lt, hbin.stop_le,
      hain.line_eq⟩
  rw [hcovering]
  exact (LieInRow.over hnodes hwithin hplace).mono hstart hstop

end Rows

/-! ## Nodes as they are read -/

section Nodes

variable {text : List Char} {comments : List Comment} {node left right : Node}
variable {t : Token}
variable {nodes : List Node} {start middle stop : Nat}

theorem isIn_spanTo (hspan : t.span.IsIn text) (hle : t.stop ≤ stop)
    (hstop : stop ≤ text.length) :
    (t.spanTo stop).IsIn text :=
  ⟨hspan.start_lt.trans_le hle, hstop, hspan.line_eq⟩

/-- The node has this place and only atoms below it. -/
def IsLeaf (node : Node) (span : Span) : Prop :=
  ∃ (kind : String) (atoms : List Atom),
    node = .mk kind (atoms.map .atom) (some span)

theorem filterMap_node?_atoms (atoms : List Atom) :
    (atoms.map Child.atom).filterMap Child.node? = [] := by
  simp [Child.node?]

theorem filterMap_node?_nodes (nodes : List Node) :
    (nodes.map Child.node).filterMap Child.node? = nodes := by
  simp [List.filterMap_map, Function.comp_def, Child.node?]

theorem IsLeaf.lies {span : Span} (hleaf : IsLeaf node span)
    (hin : span.IsIn text) (hclear : Clear comments span.start span.stop) :
    Lies text comments node span.start span.stop := by
  obtain ⟨kind, atoms, rfl⟩ := hleaf
  refine LieInRow.lies ?_ hin fun _ _ => hclear
  rw [filterMap_node?_atoms]
  exact .nil

/-- A node that begins with a token in front of its only child and ends with
the child. -/
theorem Lies.prefixed {kind : String} {children : List Child}
    (hlies : Lies text comments node start stop) (hspan : t.span.IsIn text)
    (hstart : t.stop ≤ start)
    (hnodes : children.filterMap Child.node? = [node]) :
    Lies text comments (.mk kind children (some (t.spanTo (stopOf node))))
      t.start.offset stop := by
  obtain ⟨span, hnode, hin, hfirst, hlast⟩ := hlies.exists_span
  have hstop : stopOf node = span.stop := by
    rw [stopOf, hnode]
    rfl
  have hbegin : t.stop ≤ span.start := hstart.trans hfirst
  rw [hstop]
  have hplace := isIn_spanTo hspan (hbegin.trans hin.start_lt.le) hin.stop_le
  have hchild : Lies text comments node t.start.offset span.stop :=
    ⟨hlies.placed, span, hnode, hspan.start_lt.le.trans hbegin, le_rfl⟩
  exact (LieInRow.over hnodes (.single hchild) hplace).mono le_rfl hlast

theorem lies_binary {middle' : Nat} (op : Operator)
    (hleft : Lies text comments left start middle)
    (hright : Lies text comments right middle' stop)
    (hmiddle : middle ≤ middle') :
    Lies text comments (binary left op right) start stop := by
  have hsecond : LieInRow text comments [right] middle stop :=
    .single (hright.mono hmiddle le_rfl)
  have hnodes :
      [Child.node left, symbol op.symbol, .node right].filterMap Child.node? =
      left :: ([] ++ [right]) := rfl
  exact LieInRow.cover hnodes (.cons hleft hsecond (hmiddle.trans hright.le))

theorem LieInRow.collapse (hrow : LieInRow text comments nodes start stop) :
    ∀ root ∈ collapse? nodes, Lies text comments root start stop := by
  match nodes, hrow with
  | [], _ => exact fun root hroot => nomatch hroot
  | [node], hrow =>
      rintro root hroot
      cases hroot
      exact hrow.lie node List.mem_cons_self
  | first :: second :: more, hrow =>
      rintro root hroot
      cases hroot
      obtain ⟨between, last, hlist⟩ :
          ∃ between last, second :: more = between ++ [last] :=
        ⟨_, _,
          (List.dropLast_append_getLast (List.cons_ne_nil second more)).symm⟩
      have hgetLast :
          (second :: more).getLast (List.cons_ne_nil _ _) = last := by
        simp only [hlist, List.getLast_append_singleton]
      rw [hlist] at hrow
      rw [hgetLast, hlist]
      exact LieInRow.cover (filterMap_node?_nodes _) hrow

theorem literal?_eq_some {ctx : Context} {node : Node}
    (hnode : literal? ctx t = some node) :
    t.kind ≠ .separator ∧ IsLeaf node t.span := by
  unfold literal? at hnode
  cases hkind : t.kind with
  | bool value =>
      rw [hkind] at hnode
      refine ⟨nofun, ?_⟩
      cases value with
      | false => exact ⟨"false", [], (Option.some.inj hnode).symm⟩
      | true => exact ⟨"true", [], (Option.some.inj hnode).symm⟩
  | nil =>
      rw [hkind] at hnode
      exact ⟨nofun, "nil", [], (Option.some.inj hnode).symm⟩
  | _ =>
      rw [hkind] at hnode
      first
        | cases hnode
          done
        | exact ⟨nofun, _, [_], (Option.some.inj hnode).symm⟩

theorem negated?_eq_some {minus : Token}
    (hnode : negated? minus t = some node) :
    t.kind ≠ .separator ∧ IsLeaf node (minus.spanTo t.stop) := by
  unfold negated? at hnode
  split at hnode
  · next value hkind =>
      rw [hkind]
      exact ⟨nofun, "int", [.int (-value)], (Option.some.inj hnode).symm⟩
  · next value hkind =>
      rw [hkind]
      exact ⟨nofun, "float", [.float value.neg], (Option.some.inj hnode).symm⟩
  · cases hnode

theorem isLeaf_nameNode (locals : List String) (name : String) (span : Span) :
    IsLeaf (nameNode locals name span) span := by
  unfold nameNode
  split
  · exact ⟨"lvar", [.sym name], rfl⟩
  · exact ⟨"send", [.nil, .sym name], rfl⟩

end Nodes

/-! ## The tree of a derivation -/

/-- What a form reads between two offsets lies there.  A tail begins with what
lies in front of it. -/
def Form.Lays (text : List Char) (comments : List Comment) :
    (form : Form) → form.Result → Nat → Nat → Prop
  | .items _, result, start, stop => result.2 = stop ∧ stop ≤ text.length ∧
    LieInRow text comments result.1 start stop ∧
      (result.1 = [] → Clear comments start stop)
  | .tail _ left, node, start, stop =>
    ∀ first, Lies text comments left first start →
      Lies text comments node first stop
  | .statement, node, start, stop | .chain _, node, start, stop
  | .operand _, node, start, stop
  | .unary, node, start, stop | .primary, node, start, stop =>
      Lies text comments node start stop

section Derivations

variable {text : List Char} {comments : List Comment} {start : Nat}

/-- The first of laid tokens, and where the others begin. -/
theorem Laid.cons_inv {t : Token} {ts : List Token}
    (hlaid : Laid text comments start (t :: ts)) :
    start ≤ t.start.offset ∧ t.span.IsIn text ∧
      (t.kind ≠ .separator → Clear comments start t.stop) ∧
        Laid text comments t.stop ts := by
  cases hlaid with
  | cons hstart hspan hclear hmore => exact ⟨hstart, hspan, hclear, hmore⟩

theorem Laid.skip {ts : List Token} (bracket : Bracket)
    (hlaid : Laid text comments start ts) :
    ∃ later, start ≤ later ∧ Laid text comments later (bracket.skip ts) := by
  cases bracket with
  | group => exact hlaid.skipSeparators
  | call => exact ⟨start, Nat.le_refl _, hlaid⟩

/-- Reading laid tokens, the result lies where the tokens stand that are
read. -/
theorem Derives.lays {ctx : Context} {form : Form}
    {locals locals' : List String} {ts rest : List Token}
    {result : form.Result} {cost : Nat}
    (hderives : Derives ctx form locals ts result locals' rest cost)
    (hlaid : Laid text comments start ts) :
    ∃ stop, start ≤ stop ∧ Laid text comments stop rest ∧
      form.Lays text comments result start stop := by
  induction hderives generalizing start with
  | @assignment t mark name _ _ _ _ value _ _ _ _ ih =>
      obtain ⟨hfirst, hspan, -, hlaid⟩ := hlaid.cons_inv
      obtain ⟨hsecond, hmark, -, hlaid⟩ := hlaid.cons_inv
      obtain ⟨stop, hle, hrest, hvalue⟩ := ih hlaid
      have hbefore : t.stop ≤ mark.stop := hsecond.trans hmark.start_lt.le
      have hstart : start ≤ mark.stop :=
        (hfirst.trans hspan.start_lt.le).trans hbefore
      refine ⟨stop, hstart.trans hle, hrest, ?_⟩
      exact (Lies.prefixed hvalue hspan hbefore rfl).mono hfirst le_rfl
  | expression _ _ ih => exact ih hlaid
  | chain _ _ ihLeft ihTail =>
      obtain ⟨middle, hle, hlaid, hleft⟩ := ihLeft hlaid
      obtain ⟨stop, hle', hrest, htail⟩ := ihTail hlaid
      exact ⟨stop, hle.trans hle', hrest, htail start hleft⟩
  | operandSum _ ih => exact ih hlaid
  | operandProduct _ ih => exact ih hlaid
  | tailEnd _ => exact ⟨start, Nat.le_refl _, hlaid, fun first hleft => hleft⟩
  | @tailOperator _ left right _ t op _ _ _ _ _ _ _ _ _ _ _ _ ihRight ihTail =>
      obtain ⟨hfirst, hspan, -, hlaid⟩ := hlaid.cons_inv
      obtain ⟨middle, hle, hlaid, hright⟩ := ihRight hlaid
      obtain ⟨stop, hle', hrest, htail⟩ := ihTail hlaid
      have hbefore : start ≤ t.stop := hfirst.trans hspan.start_lt.le
      refine ⟨stop, (hbefore.trans hle).trans hle', hrest,
        fun first hleft => ?_⟩
      exact htail first (lies_binary op hleft hright hbefore)
  | @negativeLiteral minus t _ _ _ hminus hnode =>
      obtain ⟨hfirst, hspan, hclear, hlaid⟩ := hlaid.cons_inv
      obtain ⟨hsecond, hnumber, hclear', hrest⟩ := hlaid.cons_inv
      obtain ⟨hkind, hleaf⟩ := negated?_eq_some hnode
      have hle : minus.stop ≤ t.stop := hsecond.trans hnumber.start_lt.le
      have hstart : start ≤ minus.stop := hfirst.trans hspan.start_lt.le
      have hsign : Clear comments minus.start.offset minus.stop :=
        (hclear (by rw [hminus]; nofun)).mono hfirst le_rfl
      refine ⟨t.stop, hstart.trans hle, hrest, ?_⟩
      have hplace := isIn_spanTo hspan hle hnumber.stop_le
      exact (hleaf.lies hplace (hsign.trans (hclear' hkind))).mono
        hfirst le_rfl
  | negation _ _ _ ih =>
      obtain ⟨hfirst, hspan, -, hlaid⟩ := hlaid.cons_inv
      obtain ⟨stop, hle, hrest, hnode⟩ := ih hlaid
      refine ⟨stop, (hfirst.trans hspan.start_lt.le).trans hle, hrest, ?_⟩
      exact (Lies.prefixed hnode hspan le_rfl rfl).mono hfirst le_rfl
  | unsigned _ _ ih => exact ih hlaid
  | @literal t _ _ _ hnode =>
      obtain ⟨hfirst, hspan, hclear, hrest⟩ := hlaid.cons_inv
      obtain ⟨hkind, hleaf⟩ := literal?_eq_some hnode
      have hclear := (hclear hkind).mono hfirst (Nat.le_refl t.stop)
      refine ⟨t.stop, hfirst.trans hspan.start_lt.le, hrest, ?_⟩
      exact (hleaf.lies hspan hclear).mono hfirst le_rfl
  | @name t name locals _ hname _ =>
      obtain ⟨hfirst, hspan, hclear, hrest⟩ := hlaid.cons_inv
      have hclear :=
        (hclear (by rw [hname]; nofun)).mono hfirst (Nat.le_refl t.stop)
      refine ⟨t.stop, hfirst.trans hspan.start_lt.le, hrest, ?_⟩
      exact ((isLeaf_nameNode locals name t.span).lies hspan hclear).mono
        hfirst le_rfl
  | @call t paren name _ _ _ _ nodes stop _ hname hparen _ ih =>
      obtain ⟨hfirst, hspan, hclear, hlaid⟩ := hlaid.cons_inv
      obtain ⟨hsecond, hopen, hclear', hlaid⟩ := hlaid.cons_inv
      obtain ⟨_, hle, hrest, rfl, hend, hrow, hnone⟩ := ih hlaid
      have hbefore : t.stop ≤ paren.stop := hsecond.trans hopen.start_lt.le
      have hname : Clear comments t.start.offset t.stop :=
        (hclear (by rw [hname]; nofun)).mono hfirst le_rfl
      have hinner :
          (Child.atom .nil :: symbol name :: nodes.map .node).filterMap
            Child.node? =
          nodes := filterMap_node?_nodes nodes
      refine ⟨stop, ((hfirst.trans hspan.start_lt.le).trans hbefore).trans hle,
        hrest, ?_⟩
      have hplace := isIn_spanTo hspan (hbefore.trans hle) hend
      refine (LieInRow.lies ?_ hplace fun hempty _ => ?_).mono hfirst le_rfl
      · rw [hinner]
        exact hrow.mono (hspan.start_lt.le.trans hbefore)
      · rw [hinner] at hempty
        exact (hname.trans (hclear' (by rw [hparen]; nofun))).trans
          (hnone hempty)
  | @group t _ _ _ _ nodes stop _ _ _ ih =>
      obtain ⟨hfirst, hspan, -, hlaid⟩ := hlaid.cons_inv
      obtain ⟨later, hlater, hlaid⟩ := hlaid.skipSeparators
      obtain ⟨_, hle, hrest, rfl, hend, hrow, -⟩ := ih hlaid
      have hbefore : t.stop ≤ stop := hlater.trans hle
      have hstart : start ≤ later :=
        (hfirst.trans hspan.start_lt.le).trans hlater
      refine ⟨stop, hstart.trans hle, hrest, ?_⟩
      cases hroot : collapse? nodes with
      | some root => exact (hrow.collapse root hroot).mono hstart le_rfl
      | none =>
          -- Nothing stands in the parentheses, and the node takes their place.
          have hplace := isIn_spanTo hspan hbefore hend
          have hlies :
              Lies text comments (.mk "begin" [] (some (t.spanTo stop)))
                t.start.offset stop := by
            apply LieInRow.lies .nil hplace
            intro _ hgroup
            exact absurd ⟨rfl, rfl⟩ hgroup
          exact hlies.mono hfirst le_rfl
  | itemsEnd hclose =>
      obtain ⟨hfirst, hspan, hclear, hrest⟩ := hlaid.cons_inv
      refine ⟨_, hfirst.trans hspan.start_lt.le, hrest, rfl, hspan.stop_le,
        .nil, ?_⟩
      intro _
      apply hclear
      rw [hclose]
      nofun
  | itemsLast _ hclose _ ih =>
      obtain ⟨middle, hle, hlaid, hnode⟩ := ih hlaid
      obtain ⟨hfirst, hspan, -, hrest⟩ := hlaid.cons_inv
      have hbefore := hfirst.trans hspan.start_lt.le
      exact ⟨_, hle.trans hbefore, hrest, rfl, hspan.stop_le,
        .single (hnode.mono le_rfl hbefore), fun hnone => nomatch hnone⟩
  | @itemsMore bracket _ _ _ _ _ _ _ _ _ stop _ _ _ _ _ _ ihItem ihItems =>
      obtain ⟨middle, hle, hlaid, hnode⟩ := ihItem hlaid
      obtain ⟨hfirst, hspan, -, hlaid⟩ := hlaid.cons_inv
      obtain ⟨later, hlater, hlaid⟩ := hlaid.skip bracket
      obtain ⟨_, hle', hrest, rfl, hend, hrow, -⟩ := ihItems hlaid
      have hbefore : middle ≤ later :=
        (hfirst.trans hspan.start_lt.le).trans hlater
      refine ⟨stop, (hle.trans hbefore).trans hle', hrest, rfl, hend, ?_, ?_⟩
      · exact .cons hnode (hrow.mono hbefore) (hbefore.trans hle')
      · exact fun hnone => nomatch hnone

theorem DerivesProgram.lays {ctx : Context} {locals locals' : List String}
    {ts : List Token} {nodes : List Node} {cost : Nat}
    (hderives : DerivesProgram ctx locals ts nodes locals' cost)
    (hlaid : Laid text comments start ts) :
    ∃ stop, start ≤ stop ∧ LieInRow text comments nodes start stop := by
  induction hderives generalizing start with
  | nil => exact ⟨start, Nat.le_refl _, .nil⟩
  | last hstatement =>
      obtain ⟨stop, hle, -, hnode⟩ := hstatement.lays hlaid
      exact ⟨stop, hle, .single hnode⟩
  | more hmark hstatement _ ih =>
      obtain ⟨middle, hle, hlaid, hnode⟩ := hstatement.lays hlaid
      obtain ⟨hfirst, hspan, -, hlaid⟩ := hlaid.cons_inv
      obtain ⟨later, hlater, hlaid⟩ := hlaid.skipSeparators
      obtain ⟨stop, hle', hrow⟩ := ih hlaid
      have hbefore : middle ≤ later :=
        (hfirst.trans hspan.start_lt.le).trans hlater
      exact ⟨stop, (hle.trans hbefore).trans hle',
        .cons hnode (hrow.mono hbefore) (hbefore.trans hle')⟩

end Derivations

theorem placed_of_parse {keep : Bool} {source : Source}
    {identification : String} {tree : Tree}
    (hparse : parse keep source identification = .ok tree) :
    tree.Placed source.text := by
  obtain ⟨lexed, nodes, hlex, hread, rfl⟩ := parse_eq_ok hparse
  obtain ⟨hlaid, hfollow⟩ := laid_of_lex hlex
  obtain ⟨start, -, hlaid⟩ := hlaid.skipSeparators
  obtain ⟨locals', cost, -, hprogram⟩ := derivesProgram_of_statements hread
  obtain ⟨stop, -, hrow⟩ := hprogram.lays hlaid
  cases keep with
  | true =>
      refine ⟨fun root hroot =>
        (hrow.collapse root hroot).placed, fun comment hcomment => ?_⟩
      obtain ⟨span, hspan, -, hin⟩ := hfollow comment hcomment
      exact ⟨span, hspan, hin⟩
  | false =>
      refine ⟨fun root hroot node hbelow => ?_, List.forall_mem_nil _⟩
      obtain ⟨hspan, hordered, -⟩ :=
        (hrow.collapse root hroot).placed node hbelow
      exact ⟨hspan, hordered, fun _ _ => List.forall_mem_nil _⟩

/-- A string over two lines, and an empty group with a comment in it. -/
def spreadText : String :=
  "f(-1) # call\nx = (\n# in\n)\ny = \"a\nb\"; (x)"

theorem placed_spreadText :
    ∃ tree, parse true (.ofText spreadText.toList) "input" = .ok tree ∧
      (tree.root.map fun root => root.nodes.map (·.span)) =
        some [some ⟨0, 5, 1⟩, some ⟨13, 25, 2⟩, some ⟨26, 35, 5⟩,
          some ⟨38, 39, 6⟩] ∧
      tree.comments.map (·.map (·.span)) =
        some [some ⟨6, 12, 1⟩, some ⟨19, 23, 3⟩] ∧
      tree.Placed (Source.ofText spreadText.toList).text := by
  have hread :
      (parse true (.ofText spreadText.toList) "input").toOption.map
        (fun tree =>
          (tree.root.map fun root => root.nodes.map (·.span),
            tree.comments.map (·.map (·.span)))) =
      some (some [some ⟨0, 5, 1⟩, some ⟨13, 25, 2⟩, some ⟨26, 35, 5⟩,
        some ⟨38, 39, 6⟩],
        some [some ⟨6, 12, 1⟩, some ⟨19, 23, 3⟩]) := by decide +kernel
  obtain ⟨tree, hparse, hspans⟩ := exists_parse_of_map hread
  obtain ⟨hnodes, hcomments⟩ := Prod.mk.inj hspans
  exact ⟨tree, hparse, hnodes, hcomments, placed_of_parse hparse⟩

end Toy
end Reparse
