import Reparse.Proofs.Toy.Carried

/-!
# Programs put together

Two programs with a line feed between them are one program: its statements are
those of the first and then those of the second, and each of them has all
levels of nesting for itself.  All that the first program leaves to the second
are the names that it assigns.
-/

namespace Reparse

def Node.target? (node : Node) : Option String :=
  match node.kind, node.children with
  | "lvasgn", .atom (.sym name) :: _ => some name
  | _, _ => none

mutual

/-- The names that are assigned to in a tree, the last one first. -/
def Node.assigned : Node → List String
  | .mk kind children span =>
    Child.assignedList children ++ (Node.mk kind children span).target?.toList

def Child.assigned : Child → List String
  | .node n => n.assigned
  | .atom _ => []

def Child.assignedList : List Child → List String
  | [] => []
  | c :: cs => Child.assignedList cs ++ c.assigned

end

/-- The names that are assigned to in the nodes, the last one first. -/
def Node.assignedIn (nodes : List Node) : List String :=
  Child.assignedList (nodes.map .node)

namespace Toy

open Text

/-! ## Names assigned -/

section Names

variable {node left right value : Node} {nodes : List Node}
variable {name kind : String}
variable {place : Option Span}

theorem assigned_of_ne (hkind : kind ≠ "lvasgn") (children : List Child) :
    (Node.mk kind children place).assigned = Child.assignedList children := by
  simp [Node.assigned, Node.target?, Node.kind, hkind]

theorem assigned_assign :
    (Node.mk "lvasgn" [symbol name, .node value] place).assigned =
      value.assigned ++ [name] := by
  simp [Node.assigned, Node.target?, Node.kind, Node.children,
    Child.assignedList, Child.assigned, symbol]

theorem assigned_negate :
    (Node.mk "send" [.node node, symbol name] place).assigned =
      node.assigned := by
  rw [assigned_of_ne (by decide)]
  simp [Child.assignedList, Child.assigned, symbol]

theorem assigned_binary (op : Operator) :
    (binary left op right).assigned = right.assigned ++ left.assigned := by
  rw [binary, assigned_of_ne (by decide)]
  simp [Child.assignedList, Child.assigned, symbol]

theorem assigned_call :
    (Node.mk "send" (.atom .nil :: symbol name :: nodes.map .node)
      place).assigned =
      Node.assignedIn nodes := by
  rw [assigned_of_ne (by decide)]
  simp [Child.assignedList, Child.assigned, symbol, Node.assignedIn]

theorem assigned_collapse (nodes : List Node) :
    ((collapse? nodes).getD (.mk "begin" [] place)).assigned =
      Node.assignedIn nodes := by
  match nodes with
  | [] => exact assigned_of_ne (by decide) []
  | [node] => exact (List.nil_append _).symm
  | _ :: _ :: _ => exact assigned_of_ne (by decide) _

theorem assigned_nameNode (locals : List String) (name : String)
    (span : Span) :
    (nameNode locals name span).assigned = [] := by
  unfold nameNode
  split <;> exact assigned_of_ne (by decide) _

theorem assigned_literal {ctx : Context} {t : Token}
    (hnode : literal? ctx t = some node) :
    node.assigned = [] := by
  obtain ⟨kind, start, stop⟩ := t
  cases kind with
  | bool value => cases value <;> cases hnode <;> rfl
  | _ =>
      first
        | cases hnode
          done
        | cases hnode
          rfl

theorem assigned_negated {minus t : Token}
    (hnode : negated? minus t = some node) :
    node.assigned = [] := by
  obtain ⟨kind, start, stop⟩ := t
  cases kind with
  | int value | float value =>
      cases hnode
      rfl
  | _ => cases hnode

end Names

/-- Reading the form assigns the names that are assigned to in its node, on top
of those before. -/
def Form.Assigns :
    (form : Form) → List String → form.Result → List String → Prop
  | .items _, locals, result, locals' =>
      locals' = Node.assignedIn result.1 ++ locals
  | .tail _ left, locals, node, locals' =>
    ∀ before, locals = left.assigned ++ before →
      locals' = node.assigned ++ before
  | .statement, locals, node, locals' | .chain _, locals, node, locals'
  | .operand _, locals, node, locals' | .unary, locals, node, locals'
  | .primary, locals, node, locals' => locals' = node.assigned ++ locals

section Derivations

variable {ctx ctx' : Context} {locals locals' locals'' : List String}
variable {ts rest more : List Token}
variable {nodes others : List Node} {mark : Token} {cost cost' : Nat}

theorem Derives.assigns {form : Form} {result : form.Result}
    (hderives : Derives ctx form locals ts result locals' rest cost) :
    form.Assigns locals result locals' := by
  induction hderives with
  | @assignment _ _ name _ _ _ _ value _ _ _ _ ih =>
      have hvalue := ih
      simp only [Form.Assigns, assigned_assign] at hvalue ⊢
      rw [hvalue, List.append_assoc, List.singleton_append]
  | expression _ _ ih => exact ih
  | chain _ _ ihLeft ihTail => exact ihTail _ ihLeft
  | operandSum _ ih => exact ih
  | operandProduct _ ih => exact ih
  | tailEnd _ => exact fun _ hleft => hleft
  | tailOperator _ _ _ _ ihRight ihTail =>
      intro before hleft
      refine ihTail before ?_
      rw [assigned_binary, List.append_assoc, ← hleft]
      exact ihRight
  | negativeLiteral _ hnode =>
      simp only [Form.Assigns, assigned_negated hnode, List.nil_append]
  | negation _ _ _ ih =>
      simp only [Form.Assigns, assigned_negate]
      exact ih
  | unsigned _ _ ih => exact ih
  | literal hnode =>
      simp only [Form.Assigns, assigned_literal hnode, List.nil_append]
  | name _ _ => simp only [Form.Assigns, assigned_nameNode, List.nil_append]
  | call _ _ _ ih =>
      simp only [Form.Assigns, assigned_call]
      exact ih
  | group _ _ ih =>
      simp only [Form.Assigns, assigned_collapse]
      exact ih
  | itemsEnd _ => rfl
  | itemsLast _ _ _ ih => exact ih
  | itemsMore _ _ _ _ ihItem ihItems =>
      have hitem := ihItem
      have hitems := ihItems
      simp only [Form.Assigns] at hitem hitems ⊢
      rw [hitems, hitem, ← List.append_assoc]
      rfl

theorem DerivesProgram.assigns
    (hderives : DerivesProgram ctx locals ts nodes locals' cost) :
    locals' = Node.assignedIn nodes ++ locals := by
  induction hderives with
  | nil => rfl
  | last hstatement => exact hstatement.assigns
  | more _ hstatement _ ih =>
      have hnode := hstatement.assigns
      simp only [Form.Assigns] at hnode
      rw [ih, hnode, ← List.append_assoc]
      rfl

/-! ## One program behind another -/

theorem peek_skipSeparators_ne (ts : List Token) :
    peek (skipSeparators ts).val ≠ some .separator := by
  have hhead := List.head?_dropWhile_not isSeparator ts
  change peek (ts.dropWhile isSeparator) ≠ some .separator
  cases hts : ts.dropWhile isSeparator with
  | nil => exact nofun
  | cons t rest =>
      rw [hts] at hhead
      simpa [isSeparator, peek] using hhead

/-- A program carried over: behind other names, in a text with another in
front. -/
theorem DerivesProgram.carried {text : List Char} {comments : List Comment}
    {start : Nat} (names : List String) (front : List Char)
    (hsame : ctx.identification = ctx'.identification)
    (hderives : DerivesProgram ctx locals ts nodes locals' cost)
    (hlaid : Laid text comments start ts) (hplain : ∀ t ∈ ts, t.IsPlain) :
    DerivesProgram ctx' (locals ++ names) (ts.map (Token.behind front))
      (nodes.map (Node.carried names front)) (locals' ++ names) cost := by
  induction hderives generalizing start with
  | nil => exact .nil
  | last hstatement => exact .last (hstatement.carried hsame hlaid hplain)
  | @more t _ _ _ _ _ _ _ _ _ hmark hstatement _ ih =>
      obtain ⟨_, -, hrest, -⟩ := hstatement.lays hlaid
      obtain ⟨-, -, -, hrest⟩ := hrest.cons_inv
      obtain ⟨_, -, hrest⟩ := hrest.skipSeparators
      have hmore := ih hrest fun t ht =>
        hplain t
          (hstatement.subset
            (List.mem_cons_of_mem _ (skipSeparators_subset _ ht)))
      rw [← skipSeparators_behind] at hmore
      exact .more (t := t.behind front) hmark
        (hstatement.carried hsame hlaid hplain) hmore

/-- Behind a separator a program goes on with the statements of another one.
The costs do not add up. -/
theorem DerivesProgram.join (hsame : ctx.identification = ctx'.identification)
    (hmark : mark.kind = .separator) (hpeek : peek ts ≠ some .separator)
    (hfirst : DerivesProgram ctx locals ts nodes locals' cost)
    (hsecond : DerivesProgram ctx' locals' (skipSeparators more).val others
      locals'' cost') :
    DerivesProgram ctx' locals (skipSeparators (ts ++ mark :: more)).val
      (nodes ++ others) locals''
      (max cost cost') := by
  have hskip : ∀ {ts : List Token}, ts ≠ [] → peek ts ≠ some .separator →
      (skipSeparators (ts ++ mark :: more)).val = ts ++ mark :: more := by
    intro ts hne hpeek
    obtain ⟨t, rest, rfl⟩ := List.exists_cons_of_ne_nil hne
    exact skipSeparators_of_peek_ne hpeek
  induction hfirst with
  | nil =>
      have hfront :
          (skipSeparators ([] ++ mark :: more)).val =
            (skipSeparators more).val :=
        List.dropWhile_cons_of_pos (by simp [isSeparator, hmark])
      rw [hfront, Nat.zero_max]
      exact hsecond
  | last hstatement =>
      rw [hskip hstatement.ne_nil hpeek]
      exact .more hmark (hstatement.append hsame hmark) hsecond
  | @more _ _ _ _ _ rest _ _ _ _ hkind hstatement _ ih =>
      have hothers := ih (peek_skipSeparators_ne rest) hsecond
      rw [← skipSeparators_append_skip] at hothers
      rw [hskip hstatement.ne_nil hpeek, Nat.max_assoc]
      exact .more hkind (hstatement.append hsame hmark) hothers

end Derivations

/-! ## Names in their places -/

section Lexing

variable {encoding : Encoding} {p next : Place} {c : Char} {s : List Char}
variable {name : String}
variable {lexed : Lexed}

theorem next_of_ident {kind : TokenKind} {left : Suffix s}
    (hkind : kind = .ident name)
    (hscan : scanToken encoding p c s = .ok (kind, next, left)) :
    next = p.skip name.length := by
  unfold scanToken at hscan
  split at hscan
  · cases hscan
    cases hkind
  split at hscan
  · split at hscan
    · cases hscan
      unfold stringToken at hkind
      dsimp only at hkind
      split at hkind <;> cases hkind
    · cases hscan
  split at hscan
  · split at hscan
    · cases hscan
      cases hkind
    · cases hscan
  split at hscan
  · dsimp only at hscan
    split at hscan
    · next htoken =>
        cases hscan
        unfold numberToken at htoken
        rw [hkind] at htoken
        split at htoken
        · cases htoken
        · split at htoken <;> cases htoken
    · cases hscan
  split at hscan
  · cases hscan
    unfold wordToken at hkind
    split at hkind
    case h_6 =>
        cases hkind
        rw [String.length_ofList]
    all_goals cases hkind
  split at hscan
  · next hmark =>
      cases hscan
      rw [hkind] at hmark
      unfold markToken? at hmark
      split at hmark <;> cases hmark
  · cases hscan

/-- A name takes up as many characters as it has. -/
theorem stop_eq_of_lexFrom (hlex : lexFrom encoding p s = .ok lexed) :
    ∀ t ∈ lexed.tokens, ∀ name, t.kind = .ident name →
      t.stop = t.start.offset + name.length := by
  fun_induction lexFrom encoding p s generalizing lexed with
  | case1 =>
      cases hlex
      exact List.forall_mem_nil _
  | case2 p c r hblank ih => exact ih hlex
  | case3 p r length lexed' hmore hblank =>
      rename_i ih
      cases hlex
      have htokens := ih hmore
      exact htokens
  | case4 => cases hlex
  | case5 => cases hlex
  | case6 p c r hblank hmark kind next rest hrest hscan lexed' hmore ih =>
      cases hlex
      refine List.forall_mem_cons.mpr ⟨fun name hkind => ?_, ih hmore⟩
      rw [next_of_ident hkind hscan]
      rfl
  | case7 => cases hlex

end Lexing

/-! ## Texts -/

section Texts

variable {encoding : Encoding} {identification : String} {a b : List Char}
variable {nodes others : List Node} {comments more : List Comment}

theorem readProgram_eq_ok
    (hread : readProgram encoding identification a = .ok (nodes, comments)) :
    ∃ lexed, lex encoding a = .ok lexed ∧ comments = lexed.comments ∧
      statements ⟨identification, lexed.stop⟩ []
        (skipSeparators lexed.tokens).val = .ok nodes := by
  unfold readProgram at hread
  split at hread
  · cases hread
  next lexed hlex =>
  split at hread
  · cases hread
  next found hfound =>
  cases hread
  exact ⟨lexed, hlex, rfl, hfound⟩

/-- Two programs with a line feed between them read as one. -/
theorem readProgram_joined
    (ha : readProgram encoding identification a = .ok (nodes, comments))
    (hb : readProgram encoding identification b = .ok (others, more))
    (hline : ∀ lexed ∈ (lex encoding b).toOption, ∀ t ∈ lexed.tokens,
      t.kind ≠ .lineWord) :
    readProgram encoding identification (a ++ '\n' :: b) =
      .ok (nodes ++ others.map
        (Node.carried (Node.assignedIn nodes) (a ++ ['\n'])),
        comments ++ more.map (Comment.behind (a ++ ['\n']))) := by
  obtain ⟨lexed, hlex, rfl, hread⟩ := readProgram_eq_ok ha
  obtain ⟨lexed', hlex', rfl, hread'⟩ := readProgram_eq_ok hb
  obtain ⟨stop, hjoined⟩ := lex_joined hlex hlex'
  obtain ⟨locals, cost, hcost, hprogram⟩ := derivesProgram_of_statements hread
  obtain ⟨locals', cost', hcost', hprogram'⟩ :=
    derivesProgram_of_statements hread'
  have hnames := hprogram.assigns
  rw [List.append_nil] at hnames
  subst hnames
  -- The second program is read behind the names of the first, at the places
  -- behind its text.
  obtain ⟨start, -, hlaid⟩ := (laid_of_lex hlex').1.skipSeparators
  have hplain : ∀ t ∈ (skipSeparators lexed'.tokens).val, t.IsPlain := by
    intro t ht
    have hmem := skipSeparators_subset _ ht
    exact ⟨hline lexed' (by rw [hlex']; rfl) t hmem,
      stop_eq_of_lexFrom hlex' t hmem⟩
  have hsame : ∀ place, (Context.mk identification place).identification =
      (Context.mk identification stop).identification := fun _ => rfl
  have hsecond :=
    hprogram'.carried (Node.assignedIn nodes) (a ++ ['\n']) (hsame _)
      hlaid hplain
  rw [← skipSeparators_behind, List.nil_append] at hsecond
  have hseam : (seam a).kind = .separator := rfl
  have hwhole :=
    hprogram.join (hsame _) hseam (peek_skipSeparators_ne _) hsecond
  rw [← skipSeparators_append_skip] at hwhole
  have hstatements := hwhole.statements_eq.1 (Nat.max_le.mpr ⟨hcost, hcost'⟩)
  unfold readProgram
  rw [hjoined]
  simp only [hstatements]

theorem readProgram_of_parse {keep : Bool} {tree : Tree}
    (hparse : parse keep (.ofText a) identification = .ok tree) :
    ∃ nodes comments, readProgram .utf8 identification a =
      .ok (nodes, comments) := by
  have htext : (Source.ofText a).text = a := Utf8.decodeLossy_encode a
  unfold parse at hparse
  rw [htext] at hparse
  split at hparse
  · cases hparse
  next nodes comments hread => exact ⟨nodes, comments, hread⟩

/-- Two programs of UTF-8 are one with a line feed between them.  Its
statements are those of the first and of the second, but for the places of the
latter and for the names that the first assigns, and so are its comments. -/
theorem parse_joined {keep : Bool} {tree other : Tree}
    (ha : parse keep (.ofText a) identification = .ok tree)
    (hb : parse keep (.ofText b) identification = .ok other)
    (hline : ∀ lexed ∈ (lex .utf8 b).toOption, ∀ t ∈ lexed.tokens,
      t.kind ≠ .lineWord) :
    ∃ nodes others comments more program remarks,
      readProgram .utf8 identification a = .ok (nodes, comments) ∧
      readProgram .utf8 identification b = .ok (others, more) ∧
      program = nodes ++ others.map (fun node =>
        (node.resolve (Node.assignedIn nodes)).behind (a ++ ['\n'])) ∧
      remarks = comments ++ more.map (Comment.behind (a ++ ['\n'])) ∧
      readProgram .utf8 identification (a ++ '\n' :: b) =
        .ok (program, remarks) ∧
      parse keep (.ofText (a ++ '\n' :: b)) identification =
        .ok ⟨collapse? program, if keep then some remarks else none⟩ := by
  obtain ⟨nodes, comments, hfirst⟩ := readProgram_of_parse ha
  obtain ⟨others, more, hsecond⟩ := readProgram_of_parse hb
  have hjoined := readProgram_joined hfirst hsecond hline
  have htext : (Source.ofText (a ++ '\n' :: b)).text = a ++ '\n' :: b :=
    Utf8.decodeLossy_encode _
  refine ⟨nodes, others, comments, more, _, _, hfirst, hsecond, rfl, rfl,
    hjoined, ?_⟩
  have hencoding : (Source.ofText (a ++ '\n' :: b)).encoding = .utf8 := rfl
  unfold parse
  rw [htext, hencoding, hjoined]
  rfl

end Texts

/-- An assignment within a call. -/
def callText : String := "f(x = 1) # one"

/-- The name as it stands alone, as a call, and beside another name. -/
def namesText : String := "\n# two\nx + x() - y"

theorem parse_joined_namesText :
    ((parse true (.ofText (callText.toList ++ '\n' :: namesText.toList))
      "input").toOption.map
      fun tree => tree.root.map Node.toString) =
      some (some ("(begin (send nil :f (lvasgn :x (int 1))) " ++
        "(send (send (lvar :x) :+ (send nil :x)) :- (send nil :y)))")) ∧
    ∃ tree other, parse true (.ofText callText.toList) "input" = .ok tree ∧
      parse true (.ofText namesText.toList) "input" = .ok other ∧
      other.root.map Node.toString =
        some "(send (send (send nil :x) :+ (send nil :x)) :- (send nil :y))" ∧
      ∃ nodes others comments more program remarks,
        readProgram .utf8 "input" callText.toList = .ok (nodes, comments) ∧
        readProgram .utf8 "input" namesText.toList = .ok (others, more) ∧
        program = nodes ++ others.map (fun node =>
          (node.resolve (Node.assignedIn nodes)).behind
            (callText.toList ++ ['\n'])) ∧
        remarks =
          comments ++ more.map (Comment.behind (callText.toList ++ ['\n'])) ∧
        readProgram .utf8 "input"
          (callText.toList ++ '\n' :: namesText.toList) =
          .ok (program, remarks) ∧
        parse true (.ofText (callText.toList ++ '\n' :: namesText.toList))
          "input" =
          .ok ⟨collapse? program, some remarks⟩ := by
  have hcall :
      (parse true (.ofText callText.toList) "input").toOption.map
        (fun _ => ()) =
      some () := by decide +kernel
  have hnames : (parse true (.ofText namesText.toList) "input").toOption.map
      (fun tree => tree.root.map Node.toString) =
      some (some
        "(send (send (send nil :x) :+ (send nil :x)) :- (send nil :y))") := by
    decide +kernel
  obtain ⟨tree, htree, -⟩ := exists_parse_of_map hcall
  obtain ⟨other, hother, hroot⟩ := exists_parse_of_map hnames
  exact ⟨by decide +kernel, tree, other, htree, hother, hroot,
    parse_joined htree hother (by decide +kernel)⟩

end Toy
end Reparse
