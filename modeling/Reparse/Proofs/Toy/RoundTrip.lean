import Reparse.Proofs.Toy.Reread
import Reparse.Proofs.Trial.Protocol

/-!
# The round trip of a source

The trial of a program that is read and printed ends in one of three ways, each
with a verdict of its own: the text has no place in the encoding of the source,
it reads as the same tree, or it is nested too deeply.
-/

namespace Reparse.Toy

open Text

section RoundTrips

variable {keep : Bool} {source : Source} {identification : String}
variable {tree : Tree} {text : String}

/-- How the trial of a source ends whose tree is printed as a text.  It ends in
one way only, as every way has a verdict of its own. -/
inductive RoundTrip (keep : Bool) (source : Source) (identification : String)
    (tree : Tree) (text : String) : Prop where
  | notEncoded {c : Char} (hencode : source.reencode text.toList = .error c)
      (hverdict : (Trial.ofSource (parser keep) printer identification
        source).verdict =
        .exempt .encodingGap)
  | readBack {encoded : Source} {other : Tree}
      (hencode : source.reencode text.toList = .ok encoded)
      (hread : parse keep encoded identification = .ok other)
        (hsame : tree.same other = true)
      (hcomments : commentTexts? other = commentTexts? tree)
      (hverdict : (Trial.ofSource (parser keep) printer identification
        source).verdict =
        .equivalent)
  | tooDeep {encoded : Source} {e : SyntaxError}
      (hencode : source.reencode text.toList = .ok encoded)
      (hread : parse keep encoded identification = .error e)
      (hmessage : e.message = Cause.nestingTooDeep.message)
      (hverdict : (Trial.ofSource (parser keep) printer identification
        source).verdict =
        .mismatch)

theorem Tree.Sound.exceeds (hsound : Tree.Sound tree)
    (hprint : print tree = .ok text)
    (hlacks : source.encoding.Lacks text.toList) :
    Trial.Exceeds (some source) tree := by
  obtain ⟨-, lists, hspells, hlines⟩ := hsound.exists_lines hprint
  rw [hlines] at hlacks
  obtain ⟨c, hc, hlacks⟩ := hlacks
  -- What the printer adds is ASCII, so that the character was held by the
  -- tree.
  rcases hsound.covered hspells c hc with hascii | ⟨held, hheld, hmem⟩
  · rw [Encoding.represents_of_ascii hascii] at hlacks
    cases hlacks
  · exact ⟨source, rfl, held, hheld, c, hmem, hlacks⟩

/-- Whatever its bytes and its encoding, a source that is read and whose tree
is printed makes a round trip, with or without its comments. -/
theorem roundTrip_of_parse (hfits : source.bytes.length < 2 ^ 63)
    (hparse : parse keep source identification = .ok tree)
    (hprint : print tree = .ok text) :
    RoundTrip keep source identification tree text := by
  have hsound := sound_of_parse hfits hparse
  have htrial : Trial.ofSource (parser keep) printer identification source =
      Trial.complete (parser keep) printer identification (some source)
        (.ok tree) :=
    congrArg (Trial.complete _ _ _ _) hparse
  cases hencode : source.reencode text.toList with
  | error c =>
      have hlacks := Source.reencode_eq_error_iff.mp ⟨c, hencode⟩
      have hgap : Trial.RepresentationGap printer (some source) tree :=
        .printed hprint rfl hlacks (hsound.exceeds hprint hlacks)
      exact .notEncoded hencode (htrial ▸ Trial.verdict_complete_of_gap hgap)
  | ok encoded =>
      obtain ⟨hread, hreject⟩ :=
        hsound.reread hprint (Source.text_of_reencode hencode).1 keep
          identification
      by_cases hlimit : printedNesting tree ≤ maxNesting
      · obtain ⟨other, hother, hroot, hcomments⟩ := hread hlimit
        have htexts : commentTexts? other = commentTexts? tree :=
          hcomments.trans (commentTexts?_of_parse hparse).symm
        have hsame : tree.same other = true :=
          same_of_commentTexts hroot htexts.symm
        refine .readBack hencode hother hsame htexts ?_
        rw [htrial]
        exact Trial.verdict_complete_of_same hprint hencode hother hsame
      · obtain ⟨e, he, hmessage⟩ := hreject (Nat.lt_of_not_le hlimit)
        refine .tooDeep hencode he hmessage ?_
        rw [htrial]
        exact Trial.verdict_complete_of_rejected hprint hencode he

end RoundTrips

/-- A program of raw bytes with a variable, a call, a folded minus and a
comment. -/
def sampleSource : Source :=
  ⟨Utf8.encode "a = -1.5; f(a, - 2 * (b - \"\\xff\")) # note".toList, .binary⟩

theorem roundTrip_sampleSource :
    ∃ tree text, parse true sampleSource "example" = .ok tree ∧
      print tree = .ok text ∧
      RoundTrip true sampleSource "example" tree text := by
  have hread : (parse true sampleSource "example").toOption.map
      (fun tree => (print tree).toOption.isSome) = some true := by
        decide +kernel
  obtain ⟨tree, hparse, hprinted⟩ := exists_parse_of_map hread
  obtain ⟨text, hprint⟩ := exists_print_of_isSome hprinted
  exact ⟨tree, text, hparse, hprint,
    roundTrip_of_parse (by decide +kernel) hparse hprint⟩

end Reparse.Toy
