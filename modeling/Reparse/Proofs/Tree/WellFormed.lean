import Reparse.Proofs.Tree.Spelling

/-!
# Trees that the notation can express

A node can be written and read back when its kinds and symbols are words, its
nodes do not lie too deep and its NaN are settled.  Both renderings spell a
node, so both are read back under the same condition; the reader returns nodes
of no other shape, so that the condition is exact.
-/

namespace Reparse

open Text Notation

mutual

/-- The kinds of a node and of all nodes below it. -/
def Node.kinds : Node → List String
  | .mk kind children _ => kind :: Child.kindsList children

def Child.kinds : Child → List String
  | .node n => n.kinds
  | .atom _ => []

def Child.kindsList : List Child → List String
  | [] => []
  | c :: cs => c.kinds ++ Child.kindsList cs

end

/-- The shape of the nodes that the reader returns. -/
structure Node.Legible (n : Node) : Prop where
  kinds : ∀ kind ∈ n.kinds, kind ≠ "" ∧ IsWord kind.toList
  symbols : ∀ name, Atom.sym name ∈ n.atoms → IsWord name.toList
  height : n.height ≤ maxNotationDepth

/-- A node whose NaN have the bits that the text `NaN` reads as, too. -/
structure Node.WellFormed (n : Node) : Prop extends n.Legible where
  nans : ∀ x, Atom.float x ∈ n.atoms → x.isNaN = true →
    Binary64.read? ['N', 'a', 'N'] = some x

/-! ## Legible nodes fit the notation -/

mutual

theorem Node.fits_iff : ∀ {n : Node} {depth : Nat}, n.Fits depth ↔
    (∀ kind ∈ n.kinds, kind ≠ "" ∧ IsWord kind.toList) ∧
      (∀ a ∈ n.atoms, a.Fits) ∧
      n.height ≤ depth
  | .mk kind children _, 0 => by
      simp [Node.Fits, Node.height]
  | .mk kind children _, depth + 1 => by
      simp only [Node.Fits, Node.kinds, Node.atoms, Node.height,
        Child.fitsList_iff, List.forall_mem_cons, and_assoc,
        Nat.add_le_add_iff_right]

theorem Child.fits_iff : ∀ {c : Child} {depth : Nat}, c.Fits depth ↔
    (∀ kind ∈ c.kinds, kind ≠ "" ∧ IsWord kind.toList) ∧
      (∀ a ∈ c.atoms, a.Fits) ∧
      c.height ≤ depth
  | .node _, _ => Node.fits_iff
  | .atom a, depth => by
      simp [Child.Fits, Child.kinds, Child.atoms, Child.height]

theorem Child.fitsList_iff :
    ∀ {cs : List Child} {depth : Nat}, Child.FitsList cs depth ↔
    (∀ kind ∈ Child.kindsList cs, kind ≠ "" ∧ IsWord kind.toList) ∧
      (∀ a ∈ Child.atomsList cs, a.Fits) ∧ Child.heightList cs ≤ depth
  | [], depth => by
      simp [Child.FitsList, Child.kindsList, Child.atomsList, Child.heightList]
  | c :: cs, depth => by
      simp only [Child.FitsList, Child.kindsList, Child.atomsList,
        Child.heightList, Child.fits_iff, Child.fitsList_iff,
        List.forall_mem_append, Nat.max_le]
      tauto

end

theorem Node.legible_iff {n : Node} : n.Legible ↔ n.Fits maxNotationDepth := by
  have hsymbols : (∀ a ∈ n.atoms, a.Fits) ↔
      ∀ name, Atom.sym name ∈ n.atoms → IsWord name.toList := by
    constructor
    · exact fun hfits name hname => hfits _ hname
    · intro hwords a ha
      cases a with
      | sym name => exact hwords name ha
      | _ => trivial
  rw [Node.fits_iff, hsymbols]
  constructor
  · intro hlegible
    exact ⟨hlegible.kinds, hlegible.symbols, hlegible.height⟩
  · rintro ⟨hkinds, hwords, hheight⟩
    exact ⟨hkinds, hwords, hheight⟩

mutual

theorem Node.fits_withoutSpans :
    ∀ {n : Node} {depth : Nat}, n.withoutSpans.Fits depth ↔ n.Fits depth
  | .mk _ _ _, 0 => Iff.rfl
  | .mk kind children _, depth + 1 => by
      simp only [Node.withoutSpans, Node.Fits, Child.fitsList_withoutSpans]

theorem Child.fits_withoutSpans : ∀ {c : Child} {depth : Nat},
    c.withoutSpans.Fits depth ↔ c.Fits depth
  | .node _, _ => Node.fits_withoutSpans
  | .atom _, _ => Iff.rfl

theorem Child.fitsList_withoutSpans : ∀ {cs : List Child} {depth : Nat},
    Child.FitsList (Child.withoutSpansList cs) depth ↔ Child.FitsList cs depth
  | [], _ => Iff.rfl
  | _ :: _, _ => and_congr Child.fits_withoutSpans Child.fitsList_withoutSpans

end

theorem Node.legible_of_same {m n : Node} (hsame : m.same n = true)
    (hlegible : m.Legible) :
    n.Legible := by
  rw [Node.legible_iff, ← Node.fits_withoutSpans] at hlegible ⊢
  rwa [← (Node.same_eq_true_iff m n).mp hsame]

/-! ## Both renderings are spellings -/

mutual

theorem Node.spells_write : ∀ n : Node, n.Spells n.write
  | .mk kind children _ =>
      ⟨_, Child.spellsList_writeList children, by simp [Node.write]⟩

theorem Child.spells_write : ∀ c : Child, c.Spells c.write
  | .node n => n.spells_write
  | .atom _ => rfl

theorem Child.spellsList_writeList :
    ∀ cs : List Child, Child.SpellsList cs (Child.writeList cs)
  | [] => rfl
  | c :: cs =>
      ⟨[' '], c.write, Child.writeList cs, by simp, by simp [isBlank],
        c.spells_write, Child.spellsList_writeList cs,
        by simp [Child.writeList]⟩

end

/-- Every line after a line feed. -/
def feedLines (lines : List (List Char)) : List Char :=
  lines.flatMap fun line => '\n' :: line

theorem feedLines_append (lines more : List (List Char)) :
    feedLines (lines ++ more) = feedLines lines ++ feedLines more :=
  List.flatMap_append

theorem feedLines_closeLast {lines : List (List Char)} (hne : lines ≠ []) :
    feedLines (closeLast lines) = feedLines lines ++ [')'] := by
  induction lines with
  | nil => exact absurd rfl hne
  | cons line lines ih =>
      cases lines with
      | nil => simp [closeLast, feedLines]
      | cons next lines =>
          have hmore := ih (List.cons_ne_nil _ _)
          simp only [closeLast, feedLines, List.flatMap_cons,
            List.append_assoc] at hmore ⊢
          rw [hmore]

theorem feedLines_eq_intercalate {lines : List (List Char)}
    (hne : lines ≠ []) :
    feedLines lines = '\n' :: ['\n'].intercalate lines := by
  induction lines with
  | nil => exact absurd rfl hne
  | cons line lines ih =>
      cases lines with
      | nil => simp [feedLines]
      | cons next lines =>
          have hmore := ih (List.cons_ne_nil _ _)
          rw [List.intercalate_cons_cons, feedLines, List.flatMap_cons,
            ← feedLines, hmore]
          simp

theorem isBlank_of_mem_indent {depth : Nat} :
    ∀ c ∈ '\n' :: indent depth, isBlank c = true := by
  intro c hc
  rcases List.mem_cons.mp hc with rfl | hc
  · decide
  · obtain ⟨-, rfl⟩ := List.mem_replicate.mp hc
    decide

mutual

/-- The lines of a node are its indentation and a text that spells it. -/
theorem Node.exists_spells_linesAt :
    ∀ (n : Node) (depth : Nat), ∃ s, n.Spells s ∧
    feedLines (n.linesAt depth) = '\n' :: indent depth ++ s
  | .mk kind children span, depth => by
      rw [Node.linesAt]
      split
      · exact ⟨_, Node.spells_write _, by simp [feedLines]⟩
      · obtain ⟨body, hbody, hlines⟩ :=
          Child.exists_spellsList_linesAt children (depth + 1)
        refine ⟨_, ⟨body, hbody, rfl⟩, ?_⟩
        rw [feedLines_closeLast (List.cons_ne_nil _ _), feedLines,
          List.flatMap_cons, ← feedLines, hlines]
        simp

theorem Child.exists_spells_linesAt :
    ∀ (c : Child) (depth : Nat), ∃ s, c.Spells s ∧
    feedLines (c.linesAt depth) = '\n' :: indent depth ++ s
  | .node n, depth => n.exists_spells_linesAt depth
  | .atom a, depth => ⟨a.write, rfl, by simp [Child.linesAt, feedLines]⟩

theorem Child.exists_spellsList_linesAt : ∀ (cs : List Child) (depth : Nat),
    ∃ body, Child.SpellsList cs body ∧
      feedLines (Child.linesAtList depth cs) = body
  | [], _ => ⟨[], rfl, rfl⟩
  | c :: cs, depth => by
      obtain ⟨s, hs, hfirst⟩ := c.exists_spells_linesAt depth
      obtain ⟨body, hbody, hmore⟩ := Child.exists_spellsList_linesAt cs depth
      refine ⟨_, ⟨'\n' :: indent depth, s, body, by simp,
        isBlank_of_mem_indent, hs, hbody, rfl⟩, ?_⟩
      rw [Child.linesAtList, feedLines_append, hfirst, hmore,
        List.append_assoc]

end

theorem Node.spells_lines (n : Node) :
    n.Spells (['\n'].intercalate n.lines) := by
  obtain ⟨s, hs, hlines⟩ := n.exists_spells_linesAt 0
  have hne : n.lines ≠ [] := by
    intro hnil
    rw [Node.lines] at hnil
    rw [hnil] at hlines
    cases hlines
  have htext : ['\n'].intercalate n.lines = s := by
    have heq := (feedLines_eq_intercalate hne).symm.trans hlines
    exact List.cons.inj heq |>.2
  rwa [htext]

/-! ## What the reader returns -/

section Reading

variable {total budget : Nat} {kind : String} {s : List Char}

/-- What the reader of children takes next: nothing, or a node, a string or a
word before the others. -/
theorem readChildren_cases {cs : List Child} {left : Rest s}
    (hread : readChildren total budget kind s = .ok (cs, left)) :
    cs = [] ∨ ∃ child more rest, ∃ left' : Rest rest, cs = child :: more ∧
      rest.length < s.length ∧
        readChildren total budget kind rest = .ok (more, left') ∧
      ((∃ node after, child = .node node ∧
          readNode total budget (trimStart s) = .ok (node, after)) ∨
        (∃ text, child = .atom (.str text)) ∨
        ∃ (c : Char) (r : List Char) (a : Atom), child = .atom a ∧
          readAtom (c :: r.takeWhile isWordChar) = .ok a) := by
  rw [readChildren] at hread
  split at hread
  · cases hread
  · next c r hcons =>
      by_cases hclose : c = ')'
      · simp only [if_pos hclose] at hread
        cases hread
        exact .inl rfl
      right
      simp only [if_neg hclose] at hread
      split at hread
      · cases hread
      · next heq =>
          repeat' split at heq
          all_goals cases heq
      · next child rest hlt heq =>
          split at hread
          · next more rest' hlt' hmore =>
              cases hread
              refine ⟨child, more, rest, ⟨rest', hlt'⟩, rfl, hlt, hmore, ?_⟩
              repeat' split at heq
              all_goals cases heq
              · exact .inl ⟨_, _, rfl, ‹_›⟩
              · exact .inr (.inl ⟨_, rfl⟩)
              · exact .inr (.inr ⟨_, _, _, rfl, ‹_›⟩)
          · cases hread

/-- A node begins with a parenthesis and the word of its kind. -/
theorem readNode_cases {node : Node} {left : Rest s}
    (hread : readNode total budget s = .ok (node, left)) :
    ∃ less r children, ∃ left' : Rest (r.dropWhile isWordChar),
      budget = less + 1 ∧ s = '(' :: r ∧
      String.ofList (r.takeWhile isWordChar) ≠ "" ∧
      node = .bare (String.ofList (r.takeWhile isWordChar)) children ∧
      readChildren total less (String.ofList (r.takeWhile isWordChar))
        (r.dropWhile isWordChar) =
        .ok (children, left') := by
  match budget, s with
  | 0, s =>
      rw [readNode] at hread
      cases hread
  | less + 1, [] =>
      simp [readNode] at hread
  | less + 1, c :: r =>
      by_cases hopen : c = '('
      · subst hopen
        rw [readNode] at hread
        split at hread
        · cases hread
        · next hkind =>
            split at hread
            · cases hread
            · next children rest hlt hchildren =>
                cases hread
                exact ⟨less, r, children, ⟨rest, hlt⟩, rfl, rfl,
                  by simpa using hkind, rfl,
                  hchildren⟩
      · simp [readNode, hopen] at hread

theorem isWord_takeWhile (s : List Char) : IsWord (s.takeWhile isWordChar) :=
  isWord_iff.mpr (List.all_eq_true.mp List.all_takeWhile)

mutual

/-- Every node that the reader returns fits the notation, with as many levels
as it had left. -/
theorem fits_of_readNode {total budget : Nat} {s : List Char} {node : Node}
    {left : Rest s} (hread : readNode total budget s = .ok (node, left)) :
    node.Fits budget := by
  obtain ⟨less, r, children, left', rfl, hs, hkind, rfl, hchildren⟩ :=
    readNode_cases hread
  have hshorter := length_dropWhile_le isWordChar r
  have hlength : r.length < s.length := by simp [hs]
  refine ⟨hkind, ?_, fits_of_readChildren hchildren⟩
  rw [String.toList_ofList]
  exact isWord_takeWhile r
termination_by 2 * s.length
decreasing_by
  omega

theorem fits_of_readChildren {total budget : Nat} {kind : String}
    {s : List Char} {cs : List Child} {left : Rest s}
    (hread : readChildren total budget kind s = .ok (cs, left)) :
    Child.FitsList cs budget := by
  rcases readChildren_cases hread with
    rfl | ⟨child, more, rest, left', rfl, hshorter, hmore, hchild⟩
  · trivial
  · refine ⟨?_, fits_of_readChildren hmore⟩
    rcases hchild with
      ⟨node, after, rfl, hnode⟩ | ⟨text, rfl⟩ | ⟨c, r, a, rfl, hatom⟩
    · exact fits_of_readNode hnode
    · trivial
    · exact fits_of_readAtom (isWord_takeWhile r) hatom
termination_by 2 * s.length + 1
decreasing_by
  · have htrim := length_trimStart_le s
    omega
  · omega

end

end Reading

/-! ## Both renderings are read back -/

theorem Node.Spells.read {n : Node} {s : List Char} (hspells : n.Spells s)
    (hlegible : n.Legible) :
    Node.read s = .ok n.reread := by
  have htrim : trimStart s = s := by
    obtain ⟨r, rfl⟩ := hspells.exists_cons
    rfl
  have hreads :
      ∀ total,
        Reads (readNode total maxNotationDepth (trimStart s)) n.reread [] := by
    intro total
    have hreads :
        Reads (readNode total maxNotationDepth (s ++ [])) n.reread [] :=
      hspells.reads (Node.legible_iff.mp hlegible)
    rwa [List.append_nil, ← htrim] at hreads
  obtain ⟨left, hleft, hread⟩ := hreads s.length
  unfold Node.read
  simp only [hread, hleft]
  rfl

theorem Node.legible_of_read {s : List Char} {n : Node}
    (hread : Node.read s = .ok n) :
    n.Legible := by
  unfold Node.read at hread
  dsimp only at hread
  split at hread
  · cases hread
  · next node rest hrest hnode =>
      split at hread
      · cases hread
        exact Node.legible_iff.mpr (fits_of_readNode hnode)
      · cases hread

/-! ## What comes back is the node -/

theorem Node.same_reread_iff {n : Node} :
    n.reread.same n = true ↔ ∀ a ∈ n.atoms, a.settled = a := by
  rw [Node.same_eq_true_iff, Node.reread, Node.withoutSpans_withoutSpans]
  constructor
  · intro heq a ha
    have hatoms := congrArg Node.atoms heq
    rw [Node.atoms_withoutSpans, Node.atoms_withoutSpans,
      Node.atoms_mapAtoms] at hatoms
    exact (List.map_inj_left (g := id)).mp
      (hatoms.trans n.atoms.map_id.symm) a ha
  · intro hsettled
    rw [Node.mapAtoms_eq_self hsettled]

theorem Atom.settled_eq_self_iff {a : Atom} : a.settled = a ↔
    ∀ x, a = .float x → x.isNaN = true →
      Binary64.read? ['N', 'a', 'N'] = some x := by
  have hnan : Binary64.read? ['N', 'a', 'N'] = some (.nan false) := rfl
  rw [hnan]
  cases a with
  | float x =>
      simp only [Atom.settled, Binary64.settled, Atom.float.injEq, forall_eq',
        Option.some.injEq]
      by_cases h : x.isNaN = true <;> simp [h]
  | _ => simp [Atom.settled]

/-- Reading the text gives the node back. -/
def Node.RoundTrips (n : Node) (s : List Char) : Prop :=
  ∃ m, Node.read s = .ok m ∧ m.same n = true

/-- A spelling of a node is read back to the node exactly when the node is well
formed. -/
theorem Node.Spells.roundTrips_iff {n : Node} {s : List Char}
    (hspells : n.Spells s) :
    n.RoundTrips s ↔ n.WellFormed := by
  constructor
  · rintro ⟨m, hread, hsame⟩
    have hlegible := Node.legible_of_same hsame (Node.legible_of_read hread)
    rw [hspells.read hlegible] at hread
    cases hread
    have hsettled := Node.same_reread_iff.mp hsame
    exact ⟨hlegible, fun x hx =>
      Atom.settled_eq_self_iff.mp (hsettled _ hx) x rfl⟩
  · intro hformed
    refine ⟨n.reread, hspells.read hformed.toLegible,
      Node.same_reread_iff.mpr ?_⟩
    intro a ha
    refine Atom.settled_eq_self_iff.mpr fun x hx => ?_
    subst hx
    exact hformed.nans x ha

/-- On one line and on indented lines a node is read back exactly when it is
well formed, and whatever is read has the shape that a node needs for that. -/
theorem exact_of_renderings :
    (∀ n : Node, (n.RoundTrips n.toString.toList ↔ n.WellFormed) ∧
      (n.RoundTrips (['\n'].intercalate n.lines) ↔ n.WellFormed)) ∧
    ∀ (s : List Char) (m : Node), Node.read s = .ok m → m.Legible := by
  refine ⟨fun n => ⟨?_, n.spells_lines.roundTrips_iff⟩, fun s m =>
    Node.legible_of_read⟩
  rw [Node.toString, String.toList_ofList]
  exact n.spells_write.roundTrips_iff

/-- A node of all sorts of atoms, with one that escapes and one that has no
characters. -/
def sampleNode : Node :=
  .bare "send" [.atom .nil, .atom (.sym ""),
    .node (.bare "str" [.atom (.str "a\n\"b\x00")]),
    .node (.bare "array" [.atom (.bytes [0, 255]), .atom (.float (.nan false)),
      .node (.bare "int" [.atom (.int (-3)), .atom (.bool true)])])]

theorem exact_sampleNode :
    sampleNode.RoundTrips (['\n'].intercalate sampleNode.lines) ∧
      ∃ m, Node.read sampleNode.toString.toList = .ok m ∧
        m.same sampleNode = true ∧
        m.Legible := by
  have hkinds : sampleNode.kinds = ["send", "str", "array", "int"] := rfl
  have hatoms :
      sampleNode.atoms = [.nil, .sym "", .str "a\n\"b\x00", .bytes [0, 255],
        .float (.nan false), .int (-3), .bool true] := rfl
  have hformed : sampleNode.WellFormed := by
    refine ⟨⟨?_, ?_, by decide⟩, ?_⟩
    · rw [hkinds]
      simp only [List.mem_cons, List.not_mem_nil, or_false, forall_eq_or_imp,
        forall_eq]
      exact ⟨⟨by decide, isWord_of_all rfl⟩, ⟨by decide, isWord_of_all rfl⟩,
        ⟨by decide, isWord_of_all rfl⟩, ⟨by decide, isWord_of_all rfl⟩⟩
    · rw [hatoms]
      simp [IsWord]
    · rw [hatoms]
      simp only [List.mem_cons, List.not_mem_nil, reduceCtorEq,
        Atom.float.injEq, false_or, or_false, forall_eq]
      exact fun _ => rfl
  obtain ⟨hline, hlines⟩ := exact_of_renderings.1 sampleNode
  obtain ⟨m, hread, hsame⟩ := hline.mpr hformed
  exact ⟨hlines.mpr hformed, m, hread, hsame, exact_of_renderings.2 _ m hread⟩

end Reparse
