import Reparse.Trial
import Reparse.Proofs.Source.Encoding
import Reparse.Proofs.Tree.Texts

/-!
# The verdict of a trial

Parser and printer are arbitrary here.  A trial begins with a source or with a
tree; what its verdict is depends on the parsed tree, on whether printing it
meets a gap of the representation, and on the tree that the printed text reads
as.  The three are stated without the stages of the trial, and the stages, the
verdict and the reports are shown to agree with them.
-/

namespace Reparse.Trial

/-- What a trial is begun with. -/
inductive Beginning where
  | ofSource (source : Source)
  | ofTree (tree : Tree) (source : Option Source)

def Beginning.source : Beginning → Option Source
  | .ofSource source => some source
  | .ofTree _ source => source

def Beginning.parsed (parser : Parser) (identification : String) :
    Beginning → Except SyntaxError Tree
  | .ofSource source => parser.parse source identification
  | .ofTree tree _ => .ok tree

def Beginning.trial (parser : Parser) (printer : Printer)
    (identification : String) : Beginning → Trial
  | .ofSource source => Trial.ofSource parser printer identification source
  | .ofTree tree source =>
      Trial.ofTree parser printer identification source tree

/-- The tree itself holds a text that the encoding of its source lacks. -/
def Exceeds (source : Option Source) (tree : Tree) : Prop :=
  ∃ s, source = some s ∧
    ∃ text ∈ tree.textsWithin, s.encoding.Lacks text.toList

/-- Printing a tree meets a gap of the representation: a literal has no
spelling, or the printer reports, or its text holds, a character outside the
encoding, and so does the tree. -/
inductive RepresentationGap (printer : Printer) (source : Option Source)
    (tree : Tree) : Prop where
  | spelling {sequence name : String}
      (hprint : printer.print tree = .error (.invalidEscape sequence name))
  | reported {name detail : String}
      (hprint : printer.print tree = .error (.encoding name detail))
      (hexceeds : Exceeds source tree)
  | printed {text : String} {s : Source}
      (hprint : printer.print tree = .ok text) (hsource : source = some s)
      (hlacks : s.encoding.Lacks text.toList) (hexceeds : Exceeds source tree)

/-- The tree that a printed tree reads as, in the encoding of the source or in
UTF-8. -/
def ReadsBackAs (parser : Parser) (printer : Printer) (identification : String)
    (source : Option Source) (tree again : Tree) : Prop :=
  ∃ text encoded, printer.print tree = .ok text ∧
    (source.getD (.ofText [])).reencode text.toList = .ok encoded ∧
    parser.parse encoded identification = .ok again

/-- A trial is what the protocol says of it, given its source and what was
parsed. -/
structure Exact (parser : Parser) (printer : Printer) (identification : String)
    (source : Option Source) (parsed : Except SyntaxError Tree) (t : Trial) :
    Prop where
  invalid_iff : t.verdict = .exempt .invalidSource ↔ ∃ e, parsed = .error e
  gap_iff : ∀ tree, parsed = .ok tree →
    (t.verdict = .exempt .encodingGap ↔ RepresentationGap printer source tree)
  equivalent_iff :
    ∀ tree, parsed = .ok tree → ¬ RepresentationGap printer source tree →
    (t.verdict = .equivalent ↔
      ∃ again, ReadsBackAs parser printer identification source tree again ∧
        tree.same again = true)
  mismatch_iff : t.verdict = .mismatch ↔
    ∃ tree, parsed = .ok tree ∧ ¬ RepresentationGap printer source tree ∧
      ∀ again, ReadsBackAs parser printer identification source tree again →
        tree.same again = false
  parsed_eq : t.parsed = parsed
  printed_of_parsed :
    ∀ e, t.parsed = .error e → t.printed = .error (.parsing e)
  reparsed_of_printed : ∀ e, t.printed = .error e → t.reparsed = .error e
  report_iff : t.report? = none ↔ t.verdict = .equivalent
  defect_iff : t.defect?.isSome ↔ t.verdict = .mismatch
  digest_iff : ∀ defect, t.defect? = some defect →
    (defect.digest.isSome ↔ source.isSome)

/-! ## Reports -/

theorem success_of_verdict {t : Trial} (hverdict : t.verdict = .equivalent) :
    t.success = true := by
  unfold verdict at hverdict
  split at hverdict
  · cases hverdict
  · split at hverdict
    · assumption
    · cases hverdict

theorem report?_eq_none_iff_success (t : Trial) :
    t.report? = none ↔ t.success = true := by
  unfold report?
  split <;> simp_all

theorem defect?_isSome_iff (t : Trial) :
    t.defect?.isSome ↔ t.verdict = .mismatch := by
  unfold defect?
  split <;> simp_all

theorem digest_of_defect? {t : Trial} {defect : Defect}
    (hdefect : t.defect? = some defect) :
    defect.digest = t.source.map Source.digest := by
  unfold defect? at hdefect
  split at hdefect
  · cases hdefect
    rfl
  · cases hdefect

/-! ## Stages -/

theorem exceedsEncoding_eq_true_iff {t : Trial} {tree : Tree}
    (hparsed : t.parsed = .ok tree) :
    t.exceedsEncoding = true ↔ Exceeds t.source tree := by
  unfold exceedsEncoding Exceeds
  cases hsource : t.source with
  | none => simp [hparsed]
  | some source =>
      simp only [hparsed, List.any_eq_true, Tree.mem_texts_iff,
        Bool.not_eq_eq_eq_not, Bool.not_true, Encoding.encodes_eq_false_iff,
        Option.some.injEq, exists_eq_left']

section Complete

variable {parser : Parser} {printer : Printer} {identification : String}
variable {source : Option Source} {tree : Tree}

theorem encodeLike_eq_error {text : String} {c : Char}
    (hencode : (source.getD (.ofText [])).reencode text.toList = .error c) :
    ∃ name detail, encodeLike source text =
      .error (.encoding name detail) := by
  simp only [encodeLike, hencode, Except.mapError]
  exact ⟨_, _, rfl⟩

theorem encodeLike_eq_ok {text : String} {encoded : Source}
    (hencode : (source.getD (.ofText [])).reencode text.toList = .ok encoded) :
    encodeLike source text = .ok encoded := by
  simp only [encodeLike, hencode, Except.mapError]

theorem not_gap_of_encoded {text : String} {encoded : Source}
    (hprint : printer.print tree = .ok text)
    (hencode : (source.getD (.ofText [])).reencode text.toList = .ok encoded) :
    ¬ RepresentationGap printer source tree := by
  intro hgap
  cases hgap with
  | spelling h => cases hprint.symm.trans h
  | reported h _ => cases hprint.symm.trans h
  | printed h hs hlacks _ =>
      cases hprint.symm.trans h
      subst hs
      obtain ⟨c, herror⟩ := Source.reencode_eq_error_iff.mpr hlacks
      rw [Option.getD_some, herror] at hencode
      cases hencode

/-- The gap that a trial finds at two of its stages is a gap of the
representation. -/
theorem hasEncodingGap_complete :
    (complete parser printer identification source (.ok tree)).hasEncodingGap =
      true ↔
      RepresentationGap printer source tree := by
  have hexceeds :
      (complete parser printer identification source
        (.ok tree)).exceedsEncoding = true ↔
        Exceeds source tree := exceedsEncoding_eq_true_iff rfl
  cases hprint : printer.print tree with
  | error e =>
      have hfound :
          (complete parser printer identification source
            (.ok tree)).printError? =
            some e := by
        simp [complete, printError?, hprint, Except.mapError]
      unfold hasEncodingGap
      rw [hfound]
      constructor
      · intro hgap
        cases e with
        | unsupported kind => cases hgap
        | invalidEscape sequence name => exact .spelling hprint
        | encoding name detail => exact .reported hprint (hexceeds.mp hgap)
        | other message => cases hgap
      · intro hgap
        cases hgap with
        | spelling h =>
            cases hprint.symm.trans h
            rfl
        | reported h hout =>
            cases hprint.symm.trans h
            exact hexceeds.mpr hout
        | printed h => cases hprint.symm.trans h
  | ok text =>
      cases hencode : (source.getD (.ofText [])).reencode text.toList with
      | error c =>
          obtain ⟨name, detail, hlike⟩ := encodeLike_eq_error hencode
          have hfound :
              (complete parser printer identification source
                (.ok tree)).printError? =
                some (.encoding name detail) := by
            simp [complete, printError?, hprint, hlike, Except.mapError]
          unfold hasEncodingGap
          rw [hfound]
          refine hexceeds.trans ⟨fun hout => ?_, fun hgap => ?_⟩
          · obtain ⟨s, hsource, hheld⟩ := hout
            have hlacks := Source.reencode_eq_error_iff.mp ⟨c, hencode⟩
            have hs : source = some s := hsource
            rw [hs, Option.getD_some] at hlacks
            exact .printed hprint hs hlacks ⟨s, hs, hheld⟩
          · cases hgap with
            | spelling h => cases hprint.symm.trans h
            | reported h _ => cases hprint.symm.trans h
            | printed _ _ _ hout => exact hout
      | ok encoded =>
          have hlike := encodeLike_eq_ok hencode
          have hfound :
              (complete parser printer identification source
                (.ok tree)).printError? =
                none := by
            cases hagain : parser.parse encoded identification <;>
              simp [complete, printError?, hprint, hlike, hagain,
                Except.mapError]
          unfold hasEncodingGap
          rw [hfound]
          exact iff_of_false (by simp) (not_gap_of_encoded hprint hencode)

theorem success_complete :
    (complete parser printer identification source (.ok tree)).success = true ↔
      ∃ again, ReadsBackAs parser printer identification source tree again ∧
        tree.same again = true := by
  constructor
  · intro hsuccess
    cases hprint : printer.print tree with
    | error e => simp [complete, success, hprint, Except.mapError] at hsuccess
    | ok text =>
        cases hencode : (source.getD (.ofText [])).reencode text.toList with
        | error c =>
            obtain ⟨name, detail, hlike⟩ := encodeLike_eq_error hencode
            simp [complete, success, hprint, hlike,
              Except.mapError] at hsuccess
        | ok encoded =>
            have hlike := encodeLike_eq_ok hencode
            cases hagain : parser.parse encoded identification with
            | error e =>
                simp [complete, success, hprint, hlike, hagain,
                  Except.mapError] at hsuccess
            | ok again =>
                refine ⟨again, ⟨text, encoded, hprint, hencode, hagain⟩, ?_⟩
                simpa [complete, success, hprint, hlike, hagain,
                  Except.mapError]
                  using hsuccess
  · rintro ⟨again, ⟨text, encoded, hprint, hencode, hagain⟩, hsame⟩
    have hlike := encodeLike_eq_ok hencode
    simpa [complete, success, hprint, hlike, hagain,
      Except.mapError] using hsame

theorem verdict_complete_error (e : SyntaxError) :
    (complete parser printer identification source (.error e)).verdict =
      .exempt .invalidSource :=
  rfl

theorem verdict_complete_of_gap
    (hgap : RepresentationGap printer source tree) :
    (complete parser printer identification source (.ok tree)).verdict =
      .exempt .encodingGap := by
  have hfound :
      (complete parser printer identification source
        (.ok tree)).hasEncodingGap =
      true := hasEncodingGap_complete.mpr hgap
  have hexempt :
      (complete parser printer identification source (.ok tree)).exemption? =
        some .encodingGap := if_pos hfound
  simp only [verdict, hexempt]

theorem verdict_complete_of_no_gap
    (hgap : ¬ RepresentationGap printer source tree) :
    (complete parser printer identification source (.ok tree)).verdict =
      if (complete parser printer identification source (.ok tree)).success
        then .equivalent else .mismatch := by
  have hfound : ¬ (complete parser printer identification source
      (.ok tree)).hasEncodingGap = true :=
    fun h => hgap (hasEncodingGap_complete.mp h)
  have hexempt :
      (complete parser printer identification source (.ok tree)).exemption? =
        none :=
    if_neg hfound
  simp only [verdict, hexempt]

theorem verdict_complete_eq_equivalent_iff (parsed : Except SyntaxError Tree) :
    (complete parser printer identification source parsed).verdict =
      .equivalent ↔
      (complete parser printer identification source parsed).success =
        true := by
  refine ⟨success_of_verdict, fun hsuccess => ?_⟩
  cases parsed with
  | error e => simp [complete, success] at hsuccess
  | ok tree =>
      obtain ⟨again, ⟨text, encoded, hprint, hencode, -⟩, -⟩ :=
        success_complete.mp hsuccess
      rw [verdict_complete_of_no_gap (not_gap_of_encoded hprint hencode),
        if_pos hsuccess]

theorem verdict_complete_of_same {text : String} {encoded : Source}
    {again : Tree} (hprint : printer.print tree = .ok text)
    (hencode : (source.getD (.ofText [])).reencode text.toList = .ok encoded)
    (hagain : parser.parse encoded identification = .ok again)
    (hsame : tree.same again = true) :
    (complete parser printer identification source (.ok tree)).verdict =
      .equivalent := by
  rw [verdict_complete_eq_equivalent_iff, success_complete]
  exact ⟨again, ⟨text, encoded, hprint, hencode, hagain⟩, hsame⟩

theorem verdict_complete_of_rejected {text : String} {encoded : Source}
    {e : SyntaxError} (hprint : printer.print tree = .ok text)
    (hencode : (source.getD (.ofText [])).reencode text.toList = .ok encoded)
    (hagain : parser.parse encoded identification = .error e) :
    (complete parser printer identification source (.ok tree)).verdict =
      .mismatch := by
  have hfailed :
      ¬ (complete parser printer identification source (.ok tree)).success =
        true := by
    rw [success_complete]
    rintro ⟨other, ⟨text', encoded', hprint', hencode', hother⟩, -⟩
    cases hprint.symm.trans hprint'
    cases hencode.symm.trans hencode'
    cases hagain.symm.trans hother
  rw [verdict_complete_of_no_gap (not_gap_of_encoded hprint hencode),
    if_neg hfailed]

theorem reparsed_complete_of_printed (parsed : Except SyntaxError Tree)
    {e : StageError}
    (hprinted : (complete parser printer identification source
      parsed).printed = .error e) :
    (complete parser printer identification source parsed).reparsed =
      .error e := by
  simp only [complete] at hprinted ⊢
  rw [hprinted]

theorem exact_complete (parsed : Except SyntaxError Tree) :
    Exact parser printer identification source parsed
      (complete parser printer identification source parsed) := by
  constructor
  · cases parsed with
    | error e => simp [verdict_complete_error]
    | ok tree =>
        by_cases hgap : RepresentationGap printer source tree
        · simp [verdict_complete_of_gap hgap]
        · rw [verdict_complete_of_no_gap hgap]
          split <;> simp
  · rintro tree rfl
    by_cases hgap : RepresentationGap printer source tree
    · simp [verdict_complete_of_gap hgap, hgap]
    · rw [verdict_complete_of_no_gap hgap]
      split <;> simp [hgap]
  · rintro tree rfl hgap
    rw [verdict_complete_eq_equivalent_iff, success_complete]
  · cases parsed with
    | error e => simp [verdict_complete_error]
    | ok tree =>
        by_cases hgap : RepresentationGap printer source tree
        · simp [verdict_complete_of_gap hgap, hgap]
        · rw [verdict_complete_of_no_gap hgap]
          by_cases hsuccess : (complete parser printer identification source
              (.ok tree)).success = true
          · obtain ⟨again, hreads, hsame⟩ := success_complete.mp hsuccess
            simp only [hsuccess, if_true, reduceCtorEq, false_iff, not_exists,
              not_and]
            rintro other hother - hall
            cases hother
            simp [hall again hreads] at hsame
          · simp only [hsuccess, if_false, true_iff, Bool.false_eq_true]
            refine ⟨tree, rfl, hgap, fun again hreads => ?_⟩
            by_contra hsame
            exact hsuccess
              (success_complete.mpr ⟨again, hreads, by simpa using hsame⟩)
  · rfl
  · intro e hparsed
    have hparsed' : parsed = .error e := hparsed
    rw [hparsed']
    rfl
  · intro e hprinted
    exact reparsed_complete_of_printed parsed hprinted
  · rw [report?_eq_none_iff_success, verdict_complete_eq_equivalent_iff]
  · exact defect?_isSome_iff _
  · intro defect hdefect
    rw [digest_of_defect? hdefect, Option.isSome_map]
    rfl

end Complete

/-- However a trial is begun, and whatever its parser and its printer do, its
stages, its verdict and its reports are those that the protocol sets down. -/
theorem exact_of_beginning (parser : Parser) (printer : Printer)
    (identification : String) (beginning : Beginning) :
    Exact parser printer identification beginning.source
      (beginning.parsed parser identification)
      (beginning.trial parser printer identification) := by
  cases beginning with
  | ofSource source => exact exact_complete _
  | ofTree tree source => exact exact_complete _

end Reparse.Trial
