import Reparse.Proofs.Source.Encoding
import Reparse.Proofs.Toy.Stability
import Reparse.Proofs.Trial.Protocol

/-!
# The encoding of a printed text

Whatever its tree looks like, a printed text holds no character beyond ASCII
that the texts of the tree do not hold, so that an encoding with room for these
has room for it.  Nothing is asked of the tree here: its names may be
unassigned, its groups may have one item, and the text may be no program.
-/

namespace Reparse.Toy

open Text

namespace Expr

/-! ## Texts of nodes and of their expressions -/

theorem texts_foreign (node : Node) :
    (foreign node).texts = node.textsWithin := by
  unfold texts
  rw [toNode, Node.textsWithin_withoutSpans]

/-- The expression that a node is taken for holds no text that the node does
not hold. -/
theorem texts_ofNode_subset (node : Node) :
    (ofNode node).texts ⊆ node.textsWithin := by
  apply ofNode.induct (fun node => (ofNode node).texts ⊆ node.textsWithin)
    -- In the place of an atom among the children stands their node, with all
    -- that it holds.
    (fun node children => textsList (ofChildren node children) ⊆
      node.textsWithin ++ Child.textsWithinList children)
  case case14 =>
      intro children span hchildren
      rw [ofNode, textsList_sequence, Node.textsWithin]
      exact fun text htext =>
        or_self_iff.mp (List.mem_append.mp (hchildren htext))
  case case17 =>
      intro left op right span operator hop hleft hright
      have hsymbol : operator.symbol = op := symbol_of_ofSymbol? hop
      simp_all [ofNode, texts, toNode, Node.bare, Node.textsWithin,
        Child.textsWithinList, Child.textsWithin, Atom.text?]
  case case19 =>
      intro name args span hname hargs text htext
      have hsplit : text = name ∨ text ∈ textsList (ofChildren
          (.mk "send" (.atom .nil :: .atom (.sym name) :: args) span)
            args) := by
        simpa [ofNode, hname, texts, textsList, toNode, Node.bare,
          Node.textsWithin, Child.textsWithinList, Child.textsWithin,
          Atom.text?] using htext
      have hnode :
          Node.textsWithin
            (.mk "send" (.atom .nil :: .atom (.sym name) :: args) span) =
          name :: Child.textsWithinList args := by
        simp [Node.textsWithin, Child.textsWithinList, Child.textsWithin,
          Atom.text?]
      rw [hnode] at hargs ⊢
      rcases hsplit with rfl | htext
      · exact List.mem_cons_self
      · rcases List.mem_append.mp (hargs htext) with hargs | hargs
        · exact hargs
        · exact List.mem_cons_of_mem _ hargs
  case case21 =>
      intro node
      intros
      rw [ofNode]
      · rw [texts_foreign]
        exact List.Subset.refl _
      all_goals assumption
  case case23 =>
      intro node child rest hchild hrest
      rw [ofChildren, textsList_cons, Child.textsWithinList, Child.textsWithin]
      grind
  case case24 =>
      intro node atom rest hrest
      rw [ofChildren, textsList_cons, texts_foreign, Child.textsWithinList]
      grind
  all_goals
    intros
    simp_all [ofNode, ofChildren, texts, textsList, toNode, toNodes, Node.bare,
      Node.textsWithin, Node.textsWithin_withoutSpans, Child.textsWithinList,
      Child.textsWithin, Atom.text?]

/-! ## Written texts -/

mutual

/-- Whatever an expression is written as is covered by its texts. -/
theorem covered_of_write :
    ∀ {e : Expr} {locals locals' : List String} {w : Written}, e.Named →
    e.write locals = .ok (w, locals') → Covered e.texts w.text
  | int _, _, _, _, _, hwrite => by
      cases hwrite
      exact covered_decimalInt _
  | float value, _, _, _, _, hwrite => by
      obtain ⟨hfinite, rfl, -⟩ := write_float_eq_ok_iff.mp hwrite
      exact covered_literal hfinite
  | str text, _, _, _, _, hwrite => by
      cases hwrite
      have htexts : (str text).texts = [text] := rfl
      rw [htexts]
      exact covered_stringLiteral text
  | bytes _, _, _, _, _, hwrite => by cases hwrite
  | sym _, _, _, _, hnamed, hwrite => by
      cases hwrite
      exact .cons (by decide) (covered_symbol hnamed)
  | nil, _, _, _, _, hwrite | bool true, _, _, _, _, hwrite
  | bool false, _, _, _, _, hwrite => by
      cases hwrite
      exact covered_of_ascii rfl
  | var _, _, _, _, hnamed, hwrite => by
      cases hwrite
      exact covered_name hnamed
  | assign _ value, _, _, _, hnamed, hwrite => by
      obtain ⟨v, hvalue, rfl⟩ := write_assign_eq_ok_iff.mp hwrite
      exact covered_assign hnamed.1 (covered_of_write hnamed.2 hvalue)
  | sequence items, _, _, _, hnamed, hwrite => by
      obtain ⟨texts, hitems, rfl⟩ := write_sequence_eq_ok_iff.mp hwrite
      exact covered_sequence (covered_of_writeList hnamed hitems)
  | negate operand, _, _, _, hnamed, hwrite => by
      obtain ⟨v, hoperand, rfl⟩ := write_negate_eq_ok_iff.mp hwrite
      have hchars := covered_of_write (e := operand) hnamed hoperand
      refine covered_negate ?_
      split
      · exact hchars.parenthesize
      · exact covered_atLeast unaryLevel hchars
  | infixed left op right, _, _, _, hnamed, hwrite => by
      obtain ⟨l, between, hleft, r, hright, rfl⟩ :=
        write_infixed_eq_ok_iff.mp hwrite
      exact
        covered_infixed (covered_atLeast _ (covered_of_write hnamed.1 hleft))
          (covered_atLeast _ (covered_of_write hnamed.2 hright))
  | call _ args, _, _, _, hnamed, hwrite => by
      obtain ⟨texts, hargs, rfl⟩ := write_call_eq_ok_iff.mp hwrite
      exact covered_call hnamed.1 (covered_of_writeList hnamed.2 hargs)
  | foreign _, _, _, _, _, hwrite => by cases hwrite

theorem covered_of_writeList :
    ∀ {es : List Expr} {locals locals' : List String}
    {lists : List (List Char)},
      NamedList es → writeList locals es = .ok (lists, locals') →
    ∀ s ∈ lists, Covered (textsList es) s
  | [], _, _, _, _, hwrite => by
      cases hwrite
      simp
  | e :: es, _, _, _, hnamed, hwrite => by
      obtain ⟨v, between, hfirst, more, hmore, rfl⟩ :=
        writeList_cons_eq_ok_iff.mp hwrite
      rw [textsList_cons]
      intro s hs
      rcases List.mem_cons.mp hs with rfl | hs
      · exact (covered_of_write hnamed.1 hfirst).mono
          (List.subset_append_left _ _)
      · exact (covered_of_writeList hnamed.2 hmore s hs).mono
          (List.subset_append_right _ _)

end

mutual

/-- Writing reports no gap of an encoding: an expression is written without
knowing of one. -/
theorem write_ne_encoding :
    ∀ {e : Expr} {locals : List String} {name detail : String},
    e.write locals ≠ .error (.encoding name detail)
  | int _, _, _, _ | str _, _, _, _ | bytes _, _, _, _ | sym _, _, _, _
  | nil, _, _, _
  | bool true, _, _, _ | bool false, _, _, _ | var _, _, _, _
  | foreign _, _, _, _ => by
      intro hwrite
      cases hwrite
  | float value, _, _, _ => by
      rw [write]
      split
      · simp
      · simp [notFiniteError]
  | assign _ value, _, _, _ => by
      intro hwrite
      rw [write] at hwrite
      split at hwrite
      · next hvalue =>
          cases hwrite
          exact write_ne_encoding (e := value) hvalue
      · cases hwrite
  | sequence items, _, _, _ => by
      intro hwrite
      rw [write] at hwrite
      split at hwrite
      · next hitems =>
          cases hwrite
          exact writeList_ne_encoding hitems
      · cases hwrite
  | negate operand, _, _, _ => by
      intro hwrite
      rw [write] at hwrite
      split at hwrite
      · next hoperand =>
          cases hwrite
          exact write_ne_encoding (e := operand) hoperand
      · cases hwrite
  | infixed left _ right, _, _, _ => by
      intro hwrite
      rw [write] at hwrite
      split at hwrite
      · next hleft =>
          cases hwrite
          exact write_ne_encoding (e := left) hleft
      split at hwrite
      · next hright =>
          cases hwrite
          exact write_ne_encoding (e := right) hright
      · cases hwrite
  | call _ args, _, _, _ => by
      intro hwrite
      rw [write] at hwrite
      split at hwrite
      · next hargs =>
          cases hwrite
          exact writeList_ne_encoding hargs
      · cases hwrite

theorem writeList_ne_encoding :
    ∀ {es : List Expr} {locals : List String} {name detail : String},
    writeList locals es ≠ .error (.encoding name detail)
  | [], _, _, _ => by
      intro hwrite
      cases hwrite
  | e :: _, _, _, _ => by
      intro hwrite
      rw [writeList] at hwrite
      split at hwrite
      · next hfirst =>
          cases hwrite
          exact write_ne_encoding (e := e) hfirst
      split at hwrite
      · next hmore =>
          cases hwrite
          exact writeList_ne_encoding hmore
      · cases hwrite

end

end Expr

/-! ## Printed texts -/

theorem textsList_programOf_subset (root : Option Node) :
    Expr.textsList (programOf root) ⊆
      root.toList.flatMap Node.textsWithin := by
  cases root with
  | none => exact List.Subset.refl _
  | some root =>
      have hroot := Expr.texts_ofNode_subset root
      rcases programOf_cases root with
        ⟨first, second, more, hshape, hprogram⟩ | hprogram
      · rw [hshape, Expr.textsList_sequence] at hroot
        rw [hprogram]
        simpa using hroot
      · rw [hprogram, Expr.textsList_cons]
        simpa [Expr.textsList, Expr.toNodes, Child.textsWithinList] using hroot

/-- A printed text is made of ASCII and of the texts of its tree. -/
theorem covered_of_print {tree : Tree} {text : String}
    (hprint : print tree = .ok text) :
    Covered tree.texts text.toList := by
  obtain ⟨lists, locals, hwrite, htext⟩ := exists_lines_of_print hprint
  have hlines := Expr.covered_of_writeList (named_programOf tree.root) hwrite
  have hcovered : Covered tree.textsWithin text.toList := by
    rw [htext]
    refine Covered.intercalate (covered_of_ascii rfl) fun s hs => ?_
    rcases List.mem_append.mp hs with hs | hs
    · exact (hlines s hs).mono
        (List.Subset.trans (textsList_programOf_subset tree.root)
          (List.subset_append_left _ _))
    · obtain ⟨comment, hcomment, rfl⟩ := List.mem_map.mp hs
      have hheld : comment.text ∈ tree.textsWithin :=
        List.mem_append_right _ (List.mem_map_of_mem hcomment)
      exact .cons (by decide) fun c hc => .inr ⟨comment.text, hheld, hc⟩
  exact hcovered.mono fun held hheld => Tree.mem_texts_iff.mpr hheld

theorem print_ne_encoding {tree : Tree} {name detail : String} :
    print tree ≠ .error (.encoding name detail) := by
  intro hprint
  unfold print programLines at hprint
  cases hwrite : Expr.writeList [] (programOf tree.root) with
  | error e =>
      rw [hwrite] at hprint
      cases hprint
      exact Expr.writeList_ne_encoding hwrite
  | ok written =>
      rw [hwrite] at hprint
      cases hprint

/-! ## Encoded texts -/

section Encoded

variable {tree : Tree} {text : String} {encoding : Encoding}

/-- What a printed text holds beyond its encoding, some text of the tree
holds. -/
theorem exists_lacks_of_print (hprint : print tree = .ok text)
    (hlacks : encoding.Lacks text.toList) :
    ∃ held ∈ tree.texts, encoding.Lacks held.toList := by
  obtain ⟨c, hc, hout⟩ := hlacks
  rcases covered_of_print hprint c hc with hascii | ⟨held, hheld, hmem⟩
  · rw [Encoding.represents_of_ascii hascii] at hout
    cases hout
  · exact ⟨held, hheld, c, hmem, hout⟩

/-- An encoding or an escape that fails in a trial of the printer fails for the
tree already. -/
theorem gap_of_printError? {parser : Parser} {identification : String}
    {source : Source} {e : PrintError}
    (hfound : (Trial.complete parser printer identification (some source)
      (.ok tree)).printError? = some e) (hgap : e.isEncodingGap = true) :
    Trial.RepresentationGap printer (some source) tree := by
  cases hprint : print tree with
  | error error =>
      have herror : error = e := by
        simpa [Trial.complete, Trial.printError?, printer, hprint,
          Except.mapError] using hfound
      subst herror
      cases error with
      | unsupported kind => cases hgap
      | other message => cases hgap
      | invalidEscape sequence name => exact .spelling hprint
      | encoding name detail => exact absurd hprint print_ne_encoding
  | ok text =>
      cases hencode : source.reencode text.toList with
      | error c =>
          have hlacks := Source.reencode_eq_error_iff.mp ⟨c, hencode⟩
          obtain ⟨held, hheld, hout⟩ := exists_lacks_of_print hprint hlacks
          exact .printed hprint rfl hlacks
            ⟨source, rfl, held, Tree.mem_texts_iff.mp hheld, hout⟩
      | ok encoded =>
          have hlike : Trial.encodeLike (some source) text = .ok encoded :=
            Trial.encodeLike_eq_ok hencode
          have hnone :
              (Trial.complete parser printer identification (some source)
                (.ok tree)).printError? = none := by
            cases hagain : parser.parse encoded identification <;>
              simp [Trial.complete, Trial.printError?, printer, hprint, hlike,
                hagain, Except.mapError]
          rw [hnone] at hfound
          cases hfound

end Encoded

/-- Printing introduces no character that an encoding lacks, whatever the tree
and the encoding.  So where a trial with a source meets an encoding failure,
with whatever parser and however it was begun, it is exempt. -/
theorem print_keeps_encoding :
    (∀ (tree : Tree) (text : String) (encoding : Encoding),
      print tree = .ok text →
      (∀ held ∈ tree.texts, ∃ bytes, encoding.encode held.toList = .ok bytes) →
      ∃ bytes, encoding.encode text.toList = .ok bytes) ∧
    ∀ (parser : Parser) (identification : String) (beginning : Trial.Beginning)
      (source : Source)
      (e : PrintError), beginning.source = some source →
      (beginning.trial parser printer identification).printError? = some e →
      e.isEncodingGap = true →
      (beginning.trial parser printer identification).verdict =
        .exempt .encodingGap := by
  constructor
  · intro tree text encoding hprint hheld
    rw [Encoding.encode_eq_ok_iff]
    intro hlacks
    obtain ⟨held, hmem, hout⟩ := exists_lacks_of_print hprint hlacks
    exact Encoding.encode_eq_ok_iff.mp (hheld held hmem) hout
  · intro parser identification beginning source e hsource hfound hgap
    have hcomplete : beginning.trial parser printer identification =
        Trial.complete parser printer identification (some source)
          (beginning.parsed parser identification) := by
      rw [← hsource]
      cases beginning <;> rfl
    rw [hcomplete] at hfound ⊢
    cases hparsed : beginning.parsed parser identification with
    | error error =>
        rw [hparsed] at hfound
        cases hfound
    | ok tree =>
        rw [hparsed] at hfound
        exact Trial.verdict_complete_of_gap (gap_of_printError? hfound hgap)

/-- A string with a letter that US-ASCII lacks and raw bytes have. -/
def accentedTree : Tree :=
  ⟨some (.bare "str" [.atom (.str "é")]), some []⟩

theorem print_keeps_encoding_accentedTree :
    (∃ bytes, Encoding.binary.encode "\"é\"".toList = .ok bytes) ∧
      (Trial.ofTree (parser true) printer "input" (some ⟨[], .usAscii⟩)
        accentedTree).verdict =
        .exempt .encodingGap := by
  have hprint : print accentedTree = .ok "\"é\"" := by decide +kernel
  have hheld : ∀ held ∈ accentedTree.texts,
      ∃ bytes, Encoding.binary.encode held.toList = .ok bytes := by
    have htexts : accentedTree.texts = ["é"] := by decide +kernel
    rw [htexts]
    simp only [List.mem_singleton, forall_eq]
    exact ⟨[0xe9], by decide +kernel⟩
  have hfound :
      (Trial.ofTree (parser true) printer "input" (some ⟨[], .usAscii⟩)
        accentedTree).printError? = some (.unrepresentable .usAscii 'é') := by
    decide +kernel
  exact ⟨print_keeps_encoding.1 _ _ _ hprint hheld,
    print_keeps_encoding.2 (parser true) "input"
      (.ofTree accentedTree (some ⟨[], .usAscii⟩))
      ⟨[], .usAscii⟩ _ rfl hfound rfl⟩

end Reparse.Toy
