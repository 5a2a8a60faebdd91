import Reparse.Proofs.Toy.Parsed

/-!
# Printed programs read back

The text of a parsed tree reads as the same tree, whatever encoding it is read
in, unless the levels that the text opens exceed the nesting limit.  They may
although those of the source did not: a group at the left end of a chain is
printed without its parentheses, and its operators then count for the chain.
-/

namespace Reparse.Toy

open Text

/-- The levels that reading the printed text of a tree opens. -/
def printedNesting (tree : Tree) : Nat :=
  Expr.nestingList (programOf tree.root)

section Rereading

variable {keep : Bool} {source : Source} {identification : String}
variable {tree : Tree} {text : String}

theorem withoutSpans_collapse? {nodes : List Node} {es : List Expr}
    (hnodes : nodes.map Node.withoutSpans = es.map Expr.toNode) :
    (collapse? nodes).map Node.withoutSpans = rootOf es := by
  have hcollapse := Expr.withoutSpans_collapse none hnodes
  match nodes, es, hnodes with
  | [], [], _ => rfl
  | [_], [_], _ => exact congrArg some hcollapse
  | [_], _ :: _ :: _, hnodes => simp at hnodes
  | _ :: _ :: _, [_], hnodes => simp at hnodes
  | _ :: _ :: _, _ :: _ :: _, _ => exact congrArg some hcollapse

theorem sameRoot_of_withoutSpans {a b : Tree}
    (hroots : a.root.map Node.withoutSpans = b.root.map Node.withoutSpans) :
    a.sameRoot b = true := by
  unfold Tree.sameRoot
  cases ha : a.root with
  | none =>
      rw [ha, Option.map_none, eq_comm, Option.map_eq_none_iff] at hroots
      rw [hroots]
  | some root =>
      rw [ha, Option.map_some, eq_comm] at hroots
      obtain ⟨other, hother, hnode⟩ := Option.map_eq_some_iff.mp hroots
      rw [hother]
      exact (Node.same_eq_true_iff root other).mpr hnode.symm

theorem same_of_commentTexts {a b : Tree} (hroot : a.sameRoot b = true)
    (hcomments : commentTexts? a = commentTexts? b) : a.same b = true := by
  unfold Tree.same
  rw [hroot, Bool.true_and]
  unfold Tree.sameComments
  unfold commentTexts? at hcomments
  split
  · next cs ds ha hb =>
      rw [ha, hb] at hcomments
      simpa using hcomments
  · rfl

/-- The text of a sound tree is read as the same statements and comments if its
nesting is within the limit, and rejected for the limit otherwise. -/
theorem Tree.Sound.reread (hsound : Tree.Sound tree)
    (hprint : print tree = .ok text) {again : Source}
    (htext : again.text = text.toList) (keep : Bool)
    (identification : String) :
    (printedNesting tree ≤ maxNesting →
      ∃ other, parse keep again identification = .ok other ∧
      tree.sameRoot other = true ∧
      commentTexts? other =
        if keep then some ((tree.comments.getD []).map (·.text)) else none) ∧
    (maxNesting < printedNesting tree →
      ∃ e, parse keep again identification = .error e ∧
      e.message = Cause.nestingTooDeep.message) := by
  obtain ⟨hnone, lists, hspells, hlines⟩ := hsound.exists_lines hprint
  rw [hlines] at htext
  rw [atoms_of_rootOf hsound.root] at hnone
  have hnative :=
    Expr.nativeList_of_writable
      (Expr.writableList_of_scoped hsound.scopes) hnone
  obtain ⟨nodes, found, hnodes, hfound, hread, hreject⟩ :=
    readProgram_lines hsound.scopes hnative hspells hsound.comments
      again.encoding identification
  constructor
  · intro hle
    refine ⟨⟨collapse? nodes, if keep then some found else none⟩, ?_, ?_, ?_⟩
    · unfold parse
      rw [htext, programText, hread hle]
    · exact sameRoot_of_withoutSpans
        (hsound.root.trans (withoutSpans_collapse? hnodes).symm)
    · cases keep with
      | true => exact congrArg some hfound
      | false => rfl
  · intro hlt
    obtain ⟨fault, hfault, hcause⟩ := hreject hlt
    refine ⟨fault.toSyntaxError identification, ?_,
      congrArg Cause.message hcause⟩
    unfold parse
    rw [htext, programText, hfault]

/-! ## The nesting limit -/

/-- A printed text is rejected for the nesting limit exactly if the levels it
opens exceed the limit, and accepted otherwise, in whatever encoding and with
or without comments it is read. -/
theorem rejected_iff_of_print (hfits : source.bytes.length < 2 ^ 63)
    (hparse : parse keep source identification = .ok tree)
    (hprint : print tree = .ok text) {again : Source}
    (htext : again.text = text.toList) (keep' : Bool)
    (identification' : String) :
    ((∃ e, parse keep' again identification' = .error e ∧
        e.message = Cause.nestingTooDeep.message) ↔
          maxNesting < printedNesting tree) ∧
      ((∃ other, parse keep' again identification' = .ok other) ↔
        printedNesting tree ≤ maxNesting) := by
  obtain ⟨hread, hreject⟩ :=
    (sound_of_parse hfits hparse).reread hprint htext keep' identification'
  by_cases hlimit : printedNesting tree ≤ maxNesting
  · obtain ⟨other, hother, -, -⟩ := hread hlimit
    refine ⟨iff_of_false ?_ (Nat.not_lt.mpr hlimit),
      iff_of_true ⟨other, hother⟩ hlimit⟩
    rintro ⟨e, he, -⟩
    rw [hother] at he
    cases he
  · obtain ⟨e, he, hmessage⟩ := hreject (Nat.lt_of_not_le hlimit)
    refine ⟨iff_of_true ⟨e, he, hmessage⟩ (Nat.lt_of_not_le hlimit),
      iff_of_false ?_ hlimit⟩
    rintro ⟨other, hother⟩
    rw [he] at hother
    cases hother

end Rereading

/-- A sum of 257 numbers whose first 255 are a group. -/
def groupedSum : List Char :=
  "(1".toList ++ (List.replicate 254 " + 1".toList).flatten ++
    ") + 1 + 1".toList

/-- The source opens 256 levels, and its text, without the parentheses, 257. -/
theorem groupedSum_rejected :
    ∃ tree text, parse true (.ofText groupedSum) "example" = .ok tree ∧
      print tree = .ok text ∧
      ∃ e, parse true (.ofText text.toList) "example" = .error e ∧
        e.message = Cause.nestingTooDeep.message := by
  have hread : (parse true (.ofText groupedSum) "example").toOption.map
      (fun tree => (printedNesting tree, (print tree).toOption.isSome)) =
        some (257, true) := by
    decide +kernel
  obtain ⟨tree, hparse, hfound⟩ := exists_parse_of_map hread
  obtain ⟨hnesting, hprinted⟩ := Prod.mk.inj hfound
  obtain ⟨text, hprint⟩ := exists_print_of_isSome hprinted
  have htext : (Source.ofText text.toList).text = text.toList :=
    Utf8.decodeLossy_encode _
  have hexact :=
    rejected_iff_of_print (by decide +kernel) hparse hprint htext true
      "example"
  refine ⟨tree, text, hparse, hprint, hexact.1.mpr ?_⟩
  rw [hnesting]
  decide

end Reparse.Toy
