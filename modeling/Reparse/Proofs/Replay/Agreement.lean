import Reparse.Proofs.Toy.Coverage
import Reparse.Proofs.Toy.Places
import Reparse.Proofs.Toy.Reread
import Reparse.Proofs.Trial.Protocol
import Reparse.Replay.Run

/-!
# A source and its case

A program can be put through a trial as a source, or as a case of a suite,
which holds the tree without places and comments.  The text of the first trial
ends with the comments, that of the second does not, and only the first
compares comments.  In UTF-8 the verdict depends on neither: it is decided by
the literals and the nesting of the statements.
-/

namespace Reparse.Toy

open Replay

/-- The verdict on a program in UTF-8: whether its statements are printed, and
whether reading their text stays within the nesting limit. -/
def verdictOf (root : Option Node) : Verdict :=
  match Expr.failureList? (programOf root) with
  | some error =>
      if error.isEncodingGap then .exempt .encodingGap else .mismatch
  | none =>
    if Expr.nestingList (programOf root) ≤ maxNesting then .equivalent
    else .mismatch

section Verdict

variable {keep : Bool} {identification : String} {source : Source}
variable {tree sound : Tree}
variable {error : PrintError}

theorem withoutSpans_of_sameRoot {a b : Tree} (hsame : a.sameRoot b = true) :
    a.root.map Node.withoutSpans = b.root.map Node.withoutSpans := by
  unfold Tree.sameRoot at hsame
  split at hsame
  · next ha hb => rw [ha, hb]
  · next n m ha hb =>
      rw [ha, hb]
      exact congrArg some ((Node.same_eq_true_iff n m).mp hsame)
  · cases hsame

/-- A printing error decides the verdict, unless it depends on the encoding. -/
theorem verdict_complete_of_error (hprint : print tree = .error error)
    (hspelling : ∀ name detail, error ≠ .encoding name detail) :
    (Trial.complete (parser keep) printer identification (some source)
      (.ok tree)).verdict =
      if error.isEncodingGap then .exempt .encodingGap else .mismatch := by
  have hescape : error.isEncodingGap = true ↔
      Trial.RepresentationGap printer (some source) tree := by
    constructor
    · intro hgap
      cases error with
      | invalidEscape sequence name => exact .spelling hprint
      | encoding name detail => exact absurd rfl (hspelling name detail)
      | _ => cases hgap
    · intro hgap
      cases hgap with
      | spelling h =>
          cases hprint.symm.trans h
          rfl
      | reported h _ =>
          cases hprint.symm.trans h
          rfl
      | printed h => cases hprint.symm.trans h
  by_cases hgap : error.isEncodingGap = true
  · rw [if_pos hgap, Trial.verdict_complete_of_gap (hescape.mp hgap)]
  · have hfailed :
        ¬ (Trial.complete (parser keep) printer identification (some source)
          (.ok tree)).success = true := by
      rw [Trial.success_complete]
      rintro ⟨again, ⟨text, encoded, htext, -, -⟩, -⟩
      cases hprint.symm.trans htext
    rw [if_neg hgap,
      Trial.verdict_complete_of_no_gap fun h => hgap (hescape.mpr h),
      if_neg hfailed]

/-- A tree in UTF-8 that is printed like a sound one has the verdict on the
statements of that one, when the comments that are read back are none that it
lacks. -/
theorem verdict_complete_of_sound (hsound : Tree.Sound sound)
    (hprint : print tree = print sound)
    (hroot : tree.root.map Node.withoutSpans =
      sound.root.map Node.withoutSpans)
    (hcomments : ∀ other, tree.sameRoot other = true →
      commentTexts? other =
        (if keep then some ((sound.comments.getD []).map (·.text)) else none) →
        tree.same other = true) (hencoding : source.encoding = .utf8) :
    (Trial.complete (parser keep) printer identification (some source)
      (.ok tree)).verdict =
      verdictOf sound.root := by
  have hatoms : sound.atoms.findSome? spellingError? =
      Expr.failureList? (programOf sound.root) := by
    rw [atoms_of_rootOf hsound.root]
    rfl
  unfold verdictOf
  rw [← hatoms]
  rcases hsound.print_cases with
    ⟨error, herror, hfailed⟩ | ⟨hnone, lists, -, htext⟩
  · rw [herror]
    refine verdict_complete_of_error (hprint.trans hfailed)
      fun name detail heq => ?_
    obtain ⟨atom, -, hspelling⟩ := List.exists_of_findSome?_eq_some herror
    rw [heq] at hspelling
    rcases spellingError?_cases hspelling with
      ⟨_, -, -, h⟩ | ⟨_, -, h⟩ | ⟨_, -, -, h⟩ <;> cases h
  · rw [hnone]
    generalize String.ofList (programText sound lists) = text at htext
    have hread : print tree = .ok text := hprint.trans htext
    cases hencode : source.reencode text.toList with
    | error c =>
        obtain ⟨d, -, hlacks⟩ := Source.reencode_eq_error_iff.mp ⟨c, hencode⟩
        rw [hencoding] at hlacks
        cases hlacks
    | ok encoded =>
        obtain ⟨hwithin, hbeyond⟩ :=
          hsound.reread htext (Source.text_of_reencode hencode).1 keep
            identification
        by_cases hlimit : Expr.nestingList (programOf sound.root) ≤ maxNesting
        · obtain ⟨other, hother, hsame, htexts⟩ := hwithin hlimit
          have hsameRoot : tree.sameRoot other = true :=
            sameRoot_of_withoutSpans
              (hroot.trans (withoutSpans_of_sameRoot hsame))
          simp only [hlimit, if_true]
          exact Trial.verdict_complete_of_same hread hencode hother
            (hcomments other hsameRoot htexts)
        · obtain ⟨e, he, -⟩ := hbeyond (Nat.lt_of_not_le hlimit)
          simp only [hlimit, if_false]
          exact Trial.verdict_complete_of_rejected hread hencode he

end Verdict

/-! ## Both trials -/

/-- The tree as a suite holds it: without places and without comments. -/
def bareTree (tree : Tree) : Tree :=
  ⟨tree.root.map Node.withoutSpans, none⟩

section Trials

variable {keep : Bool} {identification : String} {source : Source}
variable {tree : Tree}

theorem verdict_ofSource_of_parse (hfits : source.bytes.length < 2 ^ 63)
    (hparse : parse keep source identification = .ok tree)
    (hencoding : source.encoding = .utf8) :
    (Trial.ofSource (parser keep) printer identification source).verdict =
      verdictOf tree.root := by
  have htrial : Trial.ofSource (parser keep) printer identification source =
      Trial.complete (parser keep) printer identification (some source)
        (.ok tree) :=
    congrArg (Trial.complete _ _ _ _) hparse
  rw [htrial]
  apply verdict_complete_of_sound (sound_of_parse hfits hparse) rfl rfl _
    hencoding
  intro other hroot htexts
  apply same_of_commentTexts hroot
  exact (commentTexts?_of_parse hparse).trans htexts.symm

theorem verdict_ofTree_of_parse (hfits : source.bytes.length < 2 ^ 63)
    (hparse : parse keep source identification = .ok tree) {name : String}
    {held : Source} (hencoding : held.encoding = .utf8) :
    (Trial.ofTree (parser keep) printer name (some held)
      (bareTree tree)).verdict =
      verdictOf tree.root := by
  have hsound := sound_of_parse hfits hparse
  -- The tree without its comments, but with its places, is printed alike.
  have hquiet : Tree.Sound ⟨tree.root, none⟩ :=
    ⟨hsound.scopes, hsound.root, by simp⟩
  have hprint : print (bareTree tree) = print ⟨tree.root, none⟩ :=
    print_withoutSpans ⟨tree.root, none⟩
  have hroot :
      (bareTree tree).root.map Node.withoutSpans =
        tree.root.map Node.withoutSpans := by
    simp [bareTree, Node.withoutSpans_withoutSpans, Function.comp_def]
  have hcomments : ∀ other, (bareTree tree).sameRoot other = true →
      (bareTree tree).same other = true := by
    intro other hsame
    rw [Tree.same, hsame]
    rfl
  exact @verdict_complete_of_sound keep name held (bareTree tree)
    ⟨tree.root, none⟩ hquiet hprint
    hroot (fun other hsame _ => hcomments other hsame) hencoding

/-- A program has the same verdict as a source and as the case whose capture
holds its text and its tree, whatever either is called. -/
theorem verdict_trial_eq_of_parse {text : String} {c : Case}
    (hfits : (Source.ofText text.toList).bytes.length < 2 ^ 63)
    (hparse : parse keep (.ofText text.toList) identification = .ok tree)
    (hsource : c.capture.source = text)
    (htree : c.capture.tree = bareTree tree) :
    (Trial.ofSource (parser keep) printer identification
      (.ofText text.toList)).verdict =
      (c.trial (parser keep) printer).verdict := by
  rw [verdict_ofSource_of_parse hfits hparse rfl, Case.trial, hsource, htree]
  exact (verdict_ofTree_of_parse hfits hparse rfl).symm

end Trials

/-- A program with comments around a call, and a group at the left end of its
sum. -/
def commentedText : String :=
  "# first\n(1 + f(2)) + 3 # second"

theorem verdict_commentedText :
    ∃ tree, parse true (.ofText commentedText.toList) "input" = .ok tree ∧
      (tree.comments.getD []).map (·.text) = [" first", " second"] ∧
      (Trial.ofSource (parser true) printer "input"
        (.ofText commentedText.toList)).verdict =
        (Case.trial ⟨"test_sum", 0, ⟨bareTree tree, commentedText, [], []⟩⟩
          (parser true) printer).verdict := by
  have hread : (parse true (.ofText commentedText.toList) "input").toOption.map
      (fun tree => (tree.comments.getD []).map (·.text)) =
        some [" first", " second"] := by
    decide +kernel
  obtain ⟨tree, hparse, hcomments⟩ := exists_parse_of_map hread
  exact ⟨tree, hparse, hcomments,
    verdict_trial_eq_of_parse (by decide +kernel) hparse rfl rfl⟩

end Reparse.Toy
