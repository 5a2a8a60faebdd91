import Reparse.Proofs.Source.Encoding
import Reparse.Proofs.Toy.Program

/-!
# Parsed trees

The statements that a parsed tree is printed by are in scope and make up its
root, and its comments are lines.  Printing such a tree fails for the first of
its atoms without a spelling; the characters of its text are covered by the
texts of the tree.
-/

namespace Reparse.Toy

open Text

/-- The root of a list of statements, without places. -/
def rootOf : List Expr → Option Node
  | [] => none
  | e :: es => some (Expr.group (e :: es)).toNode

/-- What holds of every tree that is read from a source. -/
structure Tree.Sound (tree : Tree) : Prop where
  scopes : Expr.ScopedList [] (programOf tree.root)
  root : tree.root.map Node.withoutSpans = rootOf (programOf tree.root)
  comments : ∀ comment ∈ tree.comments.getD [], Comment.Sound comment

/-! ## Statements of a root -/

theorem programOf_cases (root : Node) :
    (∃ first second more, Expr.ofNode root =
      .sequence (first :: second :: more) ∧
      programOf (some root) = first :: second :: more) ∨
    programOf (some root) = [Expr.ofNode root] := by
  unfold programOf
  dsimp only
  split
  · next first second more hroot =>
      exact .inl ⟨first, second, more, hroot, rfl⟩
  · exact .inr rfl

theorem Faithful.sound {root : Node} {locals' : List String}
    {comments : Option (List Comment)} (hroot : Faithful [] root locals')
    (hcomments : ∀ comment ∈ comments.getD [], Comment.Sound comment) :
    Tree.Sound ⟨some root, comments⟩ := by
  obtain ⟨hscoped, -, htoNode⟩ := hroot
  rcases programOf_cases root with
    ⟨first, second, more, hshape, hprogram⟩ | hprogram
  · rw [hshape] at hscoped htoNode
    refine ⟨?_, ?_, hcomments⟩
    · rw [hprogram]
      exact hscoped.2
    · rw [hprogram, Option.map_some, ← htoNode]
      rfl
  · refine ⟨?_, ?_, hcomments⟩
    · rw [hprogram]
      exact ⟨hscoped, trivial⟩
    · rw [hprogram, Option.map_some, ← htoNode]
      rfl

theorem FaithfulList.sound {nodes : List Node} {locals' : List String}
    {comments : Option (List Comment)} (hnodes : FaithfulList [] nodes locals')
    (hcomments : ∀ comment ∈ comments.getD [], Comment.Sound comment) :
    Tree.Sound ⟨collapse? nodes, comments⟩ := by
  match nodes, hnodes with
  | [], _ => exact ⟨trivial, rfl, hcomments⟩
  | [_], hnodes => exact hnodes.single.sound hcomments
  | _ :: _ :: _, hnodes =>
      exact (Faithful.sequence hnodes (by simp)).sound hcomments

/-! ## Reading -/

section Reading

variable {keep : Bool} {source : Source} {identification : String}
variable {tree : Tree}

theorem parse_eq_ok (hparse : parse keep source identification = .ok tree) :
    ∃ lexed nodes, lex source.encoding source.text = .ok lexed ∧
      statements ⟨identification, lexed.stop⟩ []
        (skipSeparators lexed.tokens).val = .ok nodes ∧
      tree =
        ⟨collapse? nodes, if keep then some lexed.comments else none⟩ := by
  unfold parse readProgram at hparse
  cases hlex : lex source.encoding source.text with
  | error fault =>
      rw [hlex] at hparse
      cases hparse
  | ok lexed =>
      rw [hlex] at hparse
      dsimp only at hparse
      cases hread : statements ⟨identification, lexed.stop⟩ []
          (skipSeparators lexed.tokens).val with
      | error fault =>
          rw [hread] at hparse
          cases hparse
      | ok nodes =>
          rw [hread] at hparse
          cases hparse
          exact ⟨lexed, nodes, rfl, hread, rfl⟩

/-- A parsed tree is sound.  The bound is that of an address space, which holds
every byte string; a literal for the number of a line would overflow only
beyond it. -/
theorem sound_of_parse (hfits : source.bytes.length < 2 ^ 63)
    (hparse : parse keep source identification = .ok tree) :
    Tree.Sound tree := by
  obtain ⟨lexed, nodes, hlex, hread, rfl⟩ := parse_eq_ok hparse
  have hlength := source.length_text_le
  have hroom : Place.start.line + source.text.length ≤ 2 ^ 63 := by
    have hline : Place.start.line = 1 := rfl
    omega
  obtain ⟨htokens, hcomments⟩ := sound_of_lexFrom hroom hlex
  obtain ⟨locals', cost, -, hprogram⟩ := derivesProgram_of_statements hread
  refine
    (hprogram.faithful (htokens.of_subset (skipSeparators_subset _))).sound ?_
  cases keep with
  | true => exact hcomments
  | false => simp

/-- The texts of the comments, when a tree carries them. -/
def commentTexts? (tree : Tree) : Option (List String) :=
  tree.comments.map fun comments => comments.map (·.text)

theorem commentTexts?_of_parse
    (hparse : parse keep source identification = .ok tree) :
    commentTexts? tree = if keep
      then some ((tree.comments.getD []).map (·.text)) else none := by
  obtain ⟨lexed, nodes, -, -, rfl⟩ := parse_eq_ok hparse
  cases keep <;> rfl

theorem exists_parse_of_map {α : Type} {f : Tree → α} {a : α}
    (hread : (parse keep source identification).toOption.map f = some a) :
    ∃ tree, parse keep source identification = .ok tree ∧ f tree = a := by
  cases hparse : parse keep source identification with
  | error e =>
      rw [hparse] at hread
      cases hread
  | ok tree =>
      rw [hparse] at hread
      exact ⟨tree, rfl, Option.some.inj hread⟩

end Reading

theorem exists_print_of_isSome {tree : Tree}
    (hprinted : (print tree).toOption.isSome = true) :
    ∃ text, print tree = .ok text := by
  cases hprint : print tree with
  | error error =>
      rw [hprint] at hprinted
      cases hprinted
  | ok text => exact ⟨text, rfl⟩

/-! ## Printing -/

section Printing

variable {tree : Tree} {es : List Expr}

theorem atoms_group (es : List Expr) :
    (Expr.group es).toNode.atoms = Child.atomsList (Expr.toNodes es) := by
  match es with
  | [] => rfl
  | [e] => simp [Expr.group, Expr.toNodes, Child.atomsList, Child.atoms]
  | _ :: _ :: _ =>
      rw [Expr.group, Expr.toNode]
      · rfl
      · simp

/-- A tree whose root is made up by statements has the atoms of these. -/
theorem atoms_of_rootOf (hroot : tree.root.map Node.withoutSpans = rootOf es) :
    tree.atoms = Child.atomsList (Expr.toNodes es) := by
  unfold Tree.atoms
  cases es with
  | nil =>
      rw [rootOf, Option.map_eq_none_iff] at hroot
      rw [hroot]
      rfl
  | cons e es =>
      rw [rootOf] at hroot
      obtain ⟨root, hsome, hnode⟩ := Option.map_eq_some_iff.mp hroot
      rw [hsome, ← atoms_group, ← hnode, Node.atoms_withoutSpans]
      simp

theorem Tree.Sound.textsList_eq (hsound : Tree.Sound tree) :
    Expr.textsList (programOf tree.root) =
      tree.atoms.filterMap Atom.text? := by
  rw [atoms_of_rootOf hsound.root, Expr.textsList, Child.textsWithinList_eq]

/-- The text of the lines that statements are written as and of the comments of
their tree. -/
def programText (tree : Tree) (lists : List (List Char)) : List Char :=
  joinWith ['\n'] (lists ++ (tree.comments.getD []).map commentLine)

/-- The expression of the root is writable. -/
def Tree.Writable (tree : Tree) : Prop :=
  ∀ root ∈ tree.root, (Expr.ofNode root).Writable

theorem Tree.Sound.writable (hsound : Tree.Sound tree) :
    Tree.Writable tree := by
  intro root hroot
  have hscopes := hsound.scopes
  rw [Option.mem_def.mp hroot] at hscopes
  rcases programOf_cases root with
    ⟨first, second, more, hshape, hprogram⟩ | hprogram
  · rw [hprogram] at hscopes
    rw [hshape]
    exact Expr.writableList_of_scoped hscopes
  · rw [hprogram] at hscopes
    exact Expr.writable_of_scoped hscopes.1

/-- The statements of a writable tree are writable and make up its root. -/
theorem Tree.Writable.statements (hwritable : Tree.Writable tree) :
    Expr.WritableList (programOf tree.root) ∧
      tree.root.map Node.withoutSpans = rootOf (programOf tree.root) := by
  cases hroot : tree.root with
  | none => exact ⟨trivial, rfl⟩
  | some root =>
      have hexpr := hwritable root hroot
      rw [Option.map_some, ← Expr.toNode_ofNode hexpr]
      rcases programOf_cases root with
        ⟨first, second, more, hshape, hprogram⟩ | hprogram
      · rw [hshape] at hexpr ⊢
        rw [hprogram]
        exact ⟨hexpr, rfl⟩
      · rw [hprogram]
        exact ⟨⟨hexpr, trivial⟩, rfl⟩

/-- Printing a writable tree reports the first atom without a spelling, and
otherwise yields the text of its statements and comments. -/
theorem Tree.Writable.print_cases (hwritable : Tree.Writable tree) :
    (∃ error, tree.atoms.findSome? spellingError? = some error ∧
      print tree = .error error) ∨
      (tree.atoms.findSome? spellingError? = none ∧ ∃ lists,
        Expr.SpellsList (programOf tree.root) [] lists ∧
        print tree = .ok (String.ofList (programText tree lists))) := by
  obtain ⟨hstatements, hroot⟩ := hwritable.statements
  have hfailure : tree.atoms.findSome? spellingError? =
      Expr.failureList? (programOf tree.root) := by
    rw [atoms_of_rootOf hroot]
    rfl
  rw [hfailure]
  unfold print programLines
  rcases Expr.outcomeList_of_writable [] hstatements with
    ⟨error, herror, hwrite⟩ | ⟨hnone, lists, hwrite, hspells⟩
  · exact .inl ⟨error, herror, by rw [hwrite]⟩
  · exact .inr ⟨hnone, lists, hspells, by rw [hwrite]; rfl⟩

theorem Tree.Sound.print_cases (hsound : Tree.Sound tree) :
    (∃ error, tree.atoms.findSome? spellingError? = some error ∧
      print tree = .error error) ∨
      (tree.atoms.findSome? spellingError? = none ∧ ∃ lists,
        Expr.SpellsList (programOf tree.root) [] lists ∧
        print tree = .ok (String.ofList (programText tree lists))) :=
  hsound.writable.print_cases

theorem Tree.Sound.exists_lines (hsound : Tree.Sound tree) {text : String}
    (hprint : print tree = .ok text) :
    tree.atoms.findSome? spellingError? = none ∧ ∃ lists,
      Expr.SpellsList (programOf tree.root) [] lists ∧
        text.toList = programText tree lists := by
  rcases hsound.print_cases with
    ⟨error, -, herror⟩ | ⟨hnone, lists, hspells, hlines⟩
  · rw [hprint] at herror
    cases herror
  · rw [hprint] at hlines
    cases hlines
    exact ⟨hnone, lists, hspells, String.toList_ofList⟩

theorem Covered.moreLines {texts : List String} {lines : List (List Char)}
    (hlines : ∀ line ∈ lines, Covered texts line) :
    Covered texts (joinWith ['\n'] lines) :=
  .intercalate (covered_of_ascii rfl) hlines

theorem Tree.Sound.covered (hsound : Tree.Sound tree)
    {lists : List (List Char)}
    (hspells : Expr.SpellsList (programOf tree.root) [] lists) :
    Covered tree.textsWithin (programText tree lists) := by
  have hroot : Expr.textsList (programOf tree.root) ⊆ tree.textsWithin := by
    rw [hsound.textsList_eq]
    unfold Tree.textsWithin Tree.atoms
    rw [List.filterMap_flatMap]
    simp only [← Node.textsWithin_eq]
    exact List.subset_append_left _ _
  refine .moreLines fun line hline => ?_
  rcases List.mem_append.mp hline with hline | hline
  · exact (hspells.chars line hline).mono hroot
  · obtain ⟨comment, hcomment, rfl⟩ := List.mem_map.mp hline
    refine .cons (by decide) fun c hc => .inr ⟨comment.text, ?_, hc⟩
    unfold Tree.textsWithin
    exact List.mem_append_right _ (List.mem_map_of_mem hcomment)

end Printing

end Reparse.Toy
