import Reparse.Tree.Reader
import Reparse.Proofs.Binary64.Literal
import Reparse.Proofs.Text.Digits
import Mathlib.Tactic

/-!
# Atoms read back

An atom that is no string is written as a word, without blanks, parentheses or
quotes, and the word reads as the atom again: the letters, signs and marks it
begins with tell the seven sorts of atoms apart, and an integer from a number
by its lack of a point and an exponent.  Only a NaN may come back with other
bits, since all of them are written alike.
-/

namespace Reparse

open Text Notation

/-- The characters can stand together in a word. -/
def IsWord (s : List Char) : Prop :=
  ∀ c ∈ s, isBlank c = false ∧ c ≠ '(' ∧ c ≠ ')' ∧ c ≠ '"'

instance (s : List Char) : Decidable (IsWord s) :=
  inferInstanceAs
    (Decidable (∀ c ∈ s, isBlank c = false ∧ c ≠ '(' ∧ c ≠ ')' ∧ c ≠ '"'))

/-- The number that the text `NaN` reads as, for every NaN; every other number
as it is. -/
def Binary64.settled (x : Binary64) : Binary64 :=
  if x.isNaN then .nan false else x

/-- The atom that the text of an atom reads as. -/
def Atom.settled : Atom → Atom
  | .float x => .float x.settled
  | a => a

/-- A symbol fits the notation when its name is a word, and every other atom
does. -/
def Atom.Fits : Atom → Prop
  | .sym name => IsWord name.toList
  | _ => True

def Atom.IsString (a : Atom) : Prop :=
  ∃ text, a = .str text

theorem isWordChar_iff {c : Char} :
    isWordChar c = true ↔ isBlank c = false ∧ c ≠ '(' ∧ c ≠ ')' ∧ c ≠ '"' := by
  simp [isWordChar, and_assoc]

theorem isWord_iff {s : List Char} :
    IsWord s ↔ ∀ c ∈ s, isWordChar c = true := by
  simp only [IsWord, isWordChar_iff]

theorem isWord_of_all {s : List Char} (hs : s.all isWordChar = true) :
    IsWord s :=
  isWord_iff.mpr (List.all_eq_true.mp hs)

theorem IsWord.append {s t : List Char} (hs : IsWord s) (ht : IsWord t) :
    IsWord (s ++ t) :=
  fun c hc => (List.mem_append.mp hc).elim (hs c) (ht c)

theorem IsWord.cons {c : Char} {s : List Char} (hc : isWordChar c = true)
    (hs : IsWord s) :
    IsWord (c :: s) :=
  List.forall_mem_cons.mpr ⟨isWordChar_iff.mp hc, hs⟩

/-- The visible characters of ASCII behind the parentheses can stand in
words. -/
theorem isWordChar_of_toNat {c : Char} (hlow : 42 ≤ c.toNat)
    (hhigh : c.toNat < 127) :
    isWordChar c = true := by
  have hne : ∀ d : Char, d.toNat < 42 → c ≠ d := by
    rintro d hd rfl
    omega
  refine isWordChar_iff.mpr
    ⟨?_, hne _ (by decide), hne _ (by decide), hne _ (by decide)⟩
  unfold isBlank
  simp only [Bool.or_eq_false_iff, Bool.and_eq_false_iff,
    decide_eq_false_iff_not, beq_eq_false_iff_ne]
  omega

/-! ## Numbers -/

section Numbers

theorem isWord_digits {s : List Char} (hs : ∀ c ∈ s, isDigit c = true) :
    IsWord s := by
  rw [isWord_iff]
  intro c hc
  have hbounds := isDigit_toNat (hs c hc)
  exact isWordChar_of_toNat (by omega) (by omega)

theorem isWord_fraction {s : List Char} (hs : IsFraction s) : IsWord s := by
  rcases hs with rfl | ⟨ds, ⟨-, hds⟩, rfl⟩
  · simp [IsWord]
  · exact (isWord_digits hds).cons (by decide)

theorem isWord_exponent {s : List Char} (hs : IsExponent s) : IsWord s := by
  rcases hs with rfl | ⟨ds, ⟨-, hds⟩, rfl | rfl⟩
  · simp [IsWord]
  · exact (isWord_digits hds).cons (by decide)
  · exact ((isWord_digits hds).cons (by decide)).cons (by decide)

/-- A word that begins with a digit or a minus is a number. -/
theorem readAtom_of_number {c : Char} {s : List Char}
    (hc : isDigit c = true ∨ c = '-') :
    readAtom (c :: s) =
      match readInt64? (c :: s), Binary64.read? (c :: s) with
      | some i, _ => .ok (.int i)
      | none, some x => .ok (.float x)
      | none, none => .error (.unrecognizedAtom (String.ofList (c :: s))) := by
  have hne : ∀ d : Char, isDigit d = false → d ≠ '-' → c ≠ d := by
    rintro d hdigit hminus rfl
    rcases hc with hc | hc
    · rw [hc] at hdigit
      cases hdigit
    · exact hminus hc
  unfold readAtom
  split
  · next heq =>
      exact absurd (List.cons.inj heq).1 (hne 'n' (by decide) (by decide))
  · next heq =>
      exact absurd (List.cons.inj heq).1 (hne 't' (by decide) (by decide))
  · next heq =>
      exact absurd (List.cons.inj heq).1 (hne 'f' (by decide) (by decide))
  · next heq =>
      exact absurd (List.cons.inj heq).1 (hne ':' (by decide) (by decide))
  · next heq =>
      exact absurd (List.cons.inj heq).1 (hne '#' (by decide) (by decide))
  · rfl

theorem decimalInt_eq_cons (i : Int) :
    ∃ c s, decimalInt i = c :: s ∧ (isDigit c = true ∨ c = '-') := by
  unfold decimalInt
  split
  · exact ⟨'-', _, rfl, .inr rfl⟩
  · obtain ⟨hne, hdigits⟩ := isDigits_decimal i.natAbs
    obtain ⟨c, s, hs⟩ := List.exists_cons_of_ne_nil hne
    exact ⟨c, s, hs, .inl (hdigits c (by simp [hs]))⟩

theorem readInt64?_decimalInt (value : Int64) :
    readInt64? (decimalInt value.toInt) = some value := by
  have hrange : inInt64 value.toInt = true := by
    rw [inInt64_iff]
    exact ⟨value.le_toInt, value.toInt_lt⟩
  unfold readInt64?
  rw [readInt?_decimalInt, Option.bind_some, if_pos hrange, Int64.ofInt_toInt]

theorem isWord_decimalInt (i : Int) : IsWord (decimalInt i) := by
  have hdigits := isWord_digits (isDigits_decimal i.natAbs).2
  unfold decimalInt
  split
  · exact hdigits.cons (by decide)
  · exact hdigits

/-- A point or the letter of an exponent ends the digits of an integer. -/
theorem readDigits?_parts {whole fraction exponent : List Char}
    (hfraction : IsFraction fraction) (hexponent : IsExponent exponent)
    (hne : fraction ≠ [] ∨ exponent ≠ []) :
    readDigits? 10 (whole ++ fraction ++ exponent) = none := by
  have hmark :
      ∃ before c after, whole ++ fraction ++ exponent = before ++ c :: after ∧
      digitValue? 10 c = none := by
    rcases hfraction with rfl | ⟨ds, -, rfl⟩
    · rcases hexponent with rfl | ⟨ds, -, rfl | rfl⟩
      · simp at hne
      · exact ⟨whole, 'e', ds, by simp, by decide⟩
      · exact ⟨whole, 'e', '-' :: ds, by simp, by decide⟩
    · exact ⟨whole, '.', ds ++ exponent, by simp, by decide⟩
  obtain ⟨before, c, after, heq, hc⟩ := hmark
  rw [heq, readDigits?_eq (by simp), foldDigits?_append]
  cases foldDigits? 10 0 before with
  | none => rfl
  | some value => simp [foldDigits?, hc]

theorem readInt?_digit_cons {c : Char} {s : List Char}
    (hc : isDigit c = true) :
    readInt? (c :: s) = (readDigits? 10 (c :: s)).map fun n => (n : Int) := by
  unfold readInt?
  split
  · next heq =>
      rw [(List.cons.inj heq).1] at hc
      cases hc
  · unfold readUnsigned?
    split
    · next heq =>
        rw [(List.cons.inj heq).1] at hc
        cases hc
    · rfl

/-- A finite number is written as a word that is no integer, after a minus if
it is negative. -/
theorem literal_cases {x : Binary64} (hfinite : x.isFinite = true) :
    ∃ c s, isDigit c = true ∧ IsWord (c :: s) ∧
      readDigits? 10 (c :: s) = none ∧
      (x.literal = c :: s ∨ x.literal = '-' :: c :: s) := by
  obtain ⟨whole, fraction, exponent, htext, hwhole, hfraction, hexponent,
    hmarked, -⟩ :=
    Binary64.exists_parts literalLayout rfl hfinite
  have hread : readDigits? 10 (whole ++ fraction ++ exponent) = none :=
    readDigits?_parts hfraction hexponent hmarked
  have hword : IsWord (whole ++ fraction ++ exponent) :=
    ((isWord_digits hwhole.2).append (isWord_fraction hfraction)).append
      (isWord_exponent hexponent)
  obtain ⟨c, ds, rfl⟩ := List.exists_cons_of_ne_nil hwhole.1
  refine ⟨c, ds ++ fraction ++ exponent, hwhole.2 c List.mem_cons_self, hword,
    hread, ?_⟩
  unfold Binary64.literal
  rw [Binary64.write_of_isFinite hfinite, htext]
  cases x.isNegative with
  | false => exact .inl rfl
  | true => exact .inr rfl

theorem readAtom_of_isFinite {x : Binary64} (hfinite : x.isFinite = true) :
    IsWord x.literal ∧ readAtom x.literal = .ok (.float x) := by
  have hread : Binary64.read? x.literal = some x :=
    Binary64.read?_write rfl hfinite
  obtain ⟨c, s, hc, hword, hdigits, hliteral | hliteral⟩ :=
    literal_cases hfinite
  · have hint : readInt64? (c :: s) = none := by
      simp [readInt64?, readInt?_digit_cons hc, hdigits]
    rw [hliteral] at hread ⊢
    exact ⟨hword, by rw [readAtom_of_number (.inl hc), hint, hread]⟩
  · have hint : readInt64? ('-' :: c :: s) = none := by
      simp [readInt64?, readInt?, hdigits]
    rw [hliteral] at hread ⊢
    exact ⟨hword.cons (by decide),
      by rw [readAtom_of_number (.inr rfl), hint, hread]⟩

/-- The infinities and every NaN have words of their own. -/
theorem readAtom_of_not_isFinite {x : Binary64}
    (hfinite : x.isFinite = false) :
    IsWord x.literal ∧ readAtom x.literal = .ok (.float x.settled) := by
  unfold Binary64.literal Binary64.write Binary64.settled
  by_cases hnan : x.isNaN = true
  · rw [if_pos hnan, if_pos hnan]
    exact ⟨isWord_of_all rfl, rfl⟩
  · have hmagnitude : x.magnitude = Binary64.infinityMagnitude := by
      simp only [Binary64.isFinite, Binary64.isNaN, decide_eq_false_iff_not,
        decide_eq_true_eq] at hfinite hnan
      omega
    have hself := x.ofMagnitude_self
    rw [hmagnitude] at hself
    simp only [hnan, hfinite]
    cases hsign : x.isNegative with
    | false =>
        rw [hsign] at hself
        rw [← hself]
        exact ⟨isWord_of_all rfl, rfl⟩
    | true =>
        rw [hsign] at hself
        rw [← hself]
        exact ⟨isWord_of_all rfl, rfl⟩

theorem readAtom_literal (x : Binary64) :
    IsWord x.literal ∧ readAtom x.literal = .ok (.float x.settled) := by
  cases hfinite : x.isFinite with
  | false => exact readAtom_of_not_isFinite hfinite
  | true =>
      have hnumber : x.isNaN = false := by
        simp only [Binary64.isFinite, Binary64.isNaN, decide_eq_true_eq,
          decide_eq_false_iff_not] at hfinite ⊢
        omega
      have hsettled : x.settled = x := by
        unfold Binary64.settled
        rw [hnumber]
        rfl
      rw [hsettled]
      exact readAtom_of_isFinite hfinite

end Numbers

/-! ## Bytes -/

theorem readUnsigned?_hexByte (b : UInt8) :
    readUnsigned? 16 (hexByte b) = some b.toNat := by
  have hb : b.toNat < 256 := b.toNat_lt
  have hhigh : b.toNat / 16 < 16 := by omega
  have hlow : b.toNat % 16 < 16 := Nat.mod_lt _ (by decide)
  have hplus : ∀ c ∈ hexByte b, c ≠ '+' := by
    intro c hc
    simp only [hexByte, List.mem_cons, List.not_mem_nil, or_false] at hc
    rcases hc with rfl | rfl
    · exact (hexDigit_ne hhigh).1
    · exact (hexDigit_ne hlow).1
  rw [readUnsigned?_of_ne hplus, readDigits?_eq (by simp [hexByte])]
  simp only [hexByte, foldDigits?, digitValue?_hexDigit (Nat.le_refl 16) hhigh,
    digitValue?_hexDigit (Nat.le_refl 16) hlow, Option.some.injEq]
  omega

theorem readHexBytes?_hexBytes (data : List UInt8) :
    readHexBytes? (hexBytes data) = some data := by
  induction data with
  | nil => rfl
  | cons b data ih =>
      have hbyte := readUnsigned?_hexByte b
      unfold hexByte at hbyte
      simp only [hexBytes, List.flatMap_cons, hexByte, List.cons_append,
        List.nil_append] at ih ⊢
      simp only [readHexBytes?, hbyte, ih, UInt8.ofNat_toNat]

theorem isWord_hexBytes (data : List UInt8) : IsWord (hexBytes data) := by
  have hdigit : ∀ d < 16, isWordChar (hexDigit d) = true := by decide
  rw [isWord_iff]
  intro c hc
  obtain ⟨b, -, hc⟩ := List.mem_flatMap.mp hc
  have hb : b.toNat < 256 := b.toNat_lt
  simp only [hexByte, List.mem_cons, List.not_mem_nil, or_false] at hc
  rcases hc with rfl | rfl
  · exact hdigit _ (by omega)
  · exact hdigit _ (by omega)

/-! ## Words -/

/-- An atom other than a string is written as a word that reads as the atom. -/
theorem Atom.readAtom_write : ∀ {a : Atom}, a.Fits → ¬ a.IsString →
    IsWord a.write ∧ readAtom a.write = .ok a.settled
  | .nil, _, _ => ⟨isWord_of_all rfl, rfl⟩
  | .bool true, _, _ => ⟨isWord_of_all rfl, rfl⟩
  | .bool false, _, _ => ⟨isWord_of_all rfl, rfl⟩
  | .int value, _, _ => by
      refine ⟨isWord_decimalInt _, ?_⟩
      obtain ⟨c, s, heq, hc⟩ := decimalInt_eq_cons value.toInt
      have hint := readInt64?_decimalInt value
      rw [Atom.write, heq] at *
      rw [readAtom_of_number hc, hint]
      rfl
  | .float value, _, _ => readAtom_literal value
  | .str text, _, hstring => absurd ⟨text, rfl⟩ hstring
  | .bytes data, _, _ => by
      refine ⟨((isWord_hexBytes data).cons (by decide)).cons (by decide), ?_⟩
      simp only [Atom.write, readAtom, readHexBytes?_hexBytes]
      rfl
  | .sym name, hfits, _ => by
      refine ⟨IsWord.cons (by decide) hfits, ?_⟩
      simp only [Atom.write, readAtom, String.ofList_toList]
      rfl

/-- The atom that a word reads as can be written as a word. -/
theorem fits_of_readAtom {c : Char} {s : List Char} {a : Atom}
    (hword : IsWord s) (hread : readAtom (c :: s) = .ok a) : a.Fits := by
  unfold readAtom at hread
  split at hread
  · cases hread
    trivial
  · cases hread
    trivial
  · cases hread
    trivial
  · next name heq =>
      cases hread
      rw [Atom.Fits, String.toList_ofList, ← (List.cons.inj heq).2]
      exact hword
  · split at hread
    · cases hread
      trivial
    · cases hread
  · split at hread
    · cases hread
      trivial
    · cases hread
      trivial
    · cases hread

end Reparse
