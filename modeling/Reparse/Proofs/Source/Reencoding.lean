import Reparse.Language
import Reparse.Proofs.Source.Encoding
import Reparse.Proofs.Text.Escapes

/-!
# Encoding takes decoding back

Some byte strings are the bytes of a text: all of them for raw bytes, the valid
ones for UTF-8, those below 0x80 for US-ASCII.  On these decoding and encoding
undo each other.  Any other byte string is decoded with a loss, and encoding
its text yields other bytes or none: where US-ASCII is declared, the
replacement character itself lies outside the repertoire.
-/

namespace Reparse

open Text

namespace Encoding

/-- The characters that an encoding has. -/
def Holds : Encoding → Char → Prop
  | utf8, _ => True
  | usAscii, c => c.toNat ≤ 0x7F
  | binary, c => c.toNat ≤ 0xFF

/-- The byte string is the bytes of some text. -/
def IsFormed : Encoding → List UInt8 → Prop
  | utf8, bytes => bytes.toByteArray.IsValidUTF8
  | usAscii, bytes => ∀ b ∈ bytes, b < 0x80
  | binary, _ => True

section Repertoires

variable {encoding : Encoding} {c : Char} {text : List Char}

theorem represents_eq_true_iff :
    encoding.represents c = true ↔ encoding.Holds c := by
  cases encoding with
  | utf8 => simp [represents, Holds]
  | usAscii =>
      simp only [represents, Holds, decide_eq_true_eq]
      omega
  | binary =>
      simp only [represents, Holds, decide_eq_true_eq]
      omega

theorem represents_eq_false_iff :
    encoding.represents c = false ↔ ¬ encoding.Holds c := by
  rw [← represents_eq_true_iff, Bool.not_eq_true]

/-- Encoding stops at the first character that the encoding lacks. -/
theorem encode_eq_error_iff_first :
    encoding.encode text = .error c ↔
      ∃ before after, text = before ++ c :: after ∧
        (∀ d ∈ before, encoding.Holds d) ∧
        ¬ encoding.Holds c := by
  have hfind : encoding.encode text = .error c ↔
      (text.find? fun c => !encoding.represents c) = some c := by
    unfold encode
    cases text.find? fun c => !encoding.represents c <;> simp
  rw [hfind, List.find?_eq_some_iff_append]
  constructor
  · rintro ⟨hlacks, before, after, htext, hbefore⟩
    refine ⟨before, after, htext, fun d hd => ?_, ?_⟩
    · exact represents_eq_true_iff.mp (by simpa using hbefore d hd)
    · exact represents_eq_false_iff.mp (by simpa using hlacks)
  · rintro ⟨before, after, htext, hbefore, hlacks⟩
    refine ⟨?_, before, after, htext, fun d hd => ?_⟩
    · simpa using represents_eq_false_iff.mpr hlacks
    · simpa using represents_eq_true_iff.mpr (hbefore d hd)

theorem lacks_iff : encoding.Lacks text ↔ ∃ c ∈ text, ¬ encoding.Holds c := by
  simp only [Lacks, represents_eq_false_iff]

end Repertoires

/-! ## Well-formed byte strings -/

section Bytes

variable {encoding : Encoding} {text : List Char} {bytes : List UInt8}

theorem encodeChar_eq_utf8EncodeChar (c : Char) :
    Utf8.encodeChar c = String.utf8EncodeChar c := by
  have hbounds := Utf8.toNat_bounds c
  have hvalue : c.val.toNat = c.toNat := rfl
  unfold Utf8.encodeChar String.utf8EncodeChar
  simp only [hvalue]
  split
  · rw [if_pos (by omega)]
  split
  · rw [if_neg (by omega), if_pos (by omega)]
    have hlead : c.toNat / 64 % 32 = c.toNat / 64 :=
      Nat.mod_eq_of_lt (by omega)
    simp only [hlead, Nat.add_comm]
  split
  · rw [if_neg (by omega), if_neg (by omega), if_pos (by omega)]
    have hlead : c.toNat / 4096 % 16 = c.toNat / 4096 :=
      Nat.mod_eq_of_lt (by omega)
    simp only [hlead, Nat.add_comm]
  · rw [if_neg (by omega), if_neg (by omega), if_neg (by omega)]
    have hlead : c.toNat / 262144 % 8 = c.toNat / 262144 :=
      Nat.mod_eq_of_lt (by omega)
    simp only [hlead, Nat.add_comm]

theorem toByteArray_encode (text : List Char) :
    (Utf8.encode text).toByteArray = text.utf8Encode := by
  have hchars : Utf8.encode text = text.flatMap String.utf8EncodeChar :=
    List.flatMap_congr fun c _ => encodeChar_eq_utf8EncodeChar c
  rw [hchars, List.utf8Encode]

theorem isValidUTF8_iff :
    bytes.toByteArray.IsValidUTF8 ↔ ∃ text, Utf8.encode text = bytes := by
  constructor
  · rintro ⟨text, hbytes⟩
    rw [← toByteArray_encode, List.toByteArray_inj] at hbytes
    exact ⟨text, hbytes.symm⟩
  · rintro ⟨text, rfl⟩
    exact ⟨text, toByteArray_encode text⟩

theorem toNat_ofNat_byte (b : UInt8) : (Char.ofNat b.toNat).toNat = b.toNat :=
  toNat_ofNat (.inl (b.toNat_lt.trans (by decide)))

theorem flatMap_encodeChar_bytes (hencoding : encoding ≠ .utf8)
    (bytes : List UInt8) :
    (bytes.map fun b => Char.ofNat b.toNat).flatMap encoding.encodeChar =
      bytes := by
  have hchar :
      ∀ b : UInt8, encoding.encodeChar (Char.ofNat b.toNat) = [b] := by
    intro b
    have hbyte : UInt8.ofNat (Char.ofNat b.toNat).toNat = b := by
      rw [toNat_ofNat_byte, UInt8.ofNat_toNat]
    cases encoding with
    | utf8 => exact absurd rfl hencoding
    | usAscii => exact congrArg (fun b => [b]) hbyte
    | binary => exact congrArg (fun b => [b]) hbyte
  rw [List.flatMap_map]
  simp only [hchar, List.flatMap_singleton']

/-- Each byte by itself is a character of an encoding with one byte for
each. -/
theorem exists_encode_of_bytes (hencoding : encoding ≠ .utf8)
    (hbytes : ∀ b ∈ bytes, encoding.Holds (Char.ofNat b.toNat)) :
    ∃ text, encoding.encode text = .ok bytes := by
  refine ⟨bytes.map fun b => Char.ofNat b.toNat, ?_⟩
  rw [encode_eq_of_not_lacks, flatMap_encodeChar_bytes hencoding]
  rw [lacks_iff]
  rintro ⟨c, hc, hlacks⟩
  obtain ⟨b, hb, rfl⟩ := List.mem_map.mp hc
  exact hlacks (hbytes b hb)

theorem lt_of_encode_usAscii (hencode : usAscii.encode text = .ok bytes) :
    ∀ b ∈ bytes, b < 0x80 := by
  have hrep : ¬ usAscii.Lacks text := encode_eq_ok_iff.mp ⟨bytes, hencode⟩
  rw [encode_eq_of_not_lacks hrep, Except.ok.injEq] at hencode
  subst hencode
  intro b hb
  obtain ⟨c, hc, hbyte⟩ := List.mem_flatMap.mp hb
  obtain rfl : b = UInt8.ofNat c.toNat := List.mem_singleton.mp hbyte
  have hlow : c.toNat ≤ 0x7F := by
    by_contra hhigh
    exact hrep (lacks_iff.mpr ⟨c, hc, hhigh⟩)
  rw [UInt8.lt_iff_toNat_lt, Utf8.toNat_ofNat_of_lt (by omega)]
  exact Nat.lt_succ_of_le hlow

theorem isFormed_iff :
    encoding.IsFormed bytes ↔ ∃ text, encoding.encode text = .ok bytes := by
  cases encoding with
  | utf8 =>
      have hencode : ∀ text, utf8.encode text = .ok (Utf8.encode text) :=
        fun text => encode_eq_of_not_lacks (by simp [lacks_iff, Holds])
      simp only [IsFormed, isValidUTF8_iff, hencode, Except.ok.injEq]
  | usAscii =>
      constructor
      · intro hbytes
        refine exists_encode_of_bytes (by decide) fun b hb => ?_
        have hlow : b.toNat < 0x80 := hbytes b hb
        rw [Holds, toNat_ofNat_byte]
        omega
      · rintro ⟨text, hencode⟩
        exact lt_of_encode_usAscii hencode
  | binary =>
      refine iff_of_true trivial
        (exists_encode_of_bytes (by decide) fun b _ => ?_)
      have hlow : b.toNat < 256 := b.toNat_lt
      rw [Holds, toNat_ofNat_byte]
      omega

/-- A text is encoded as the well-formed byte string that decodes to it. -/
theorem encode_eq_ok_iff_decode :
    encoding.encode text = .ok bytes ↔
      encoding.IsFormed bytes ∧ encoding.decode bytes = text := by
  constructor
  · intro hencode
    exact ⟨isFormed_iff.mpr ⟨text, hencode⟩, decode_of_encode hencode⟩
  · rintro ⟨hformed, rfl⟩
    obtain ⟨text, hencode⟩ := isFormed_iff.mp hformed
    rwa [decode_of_encode hencode]

end Bytes

/-! ## The name of a character -/

theorem digitValue?_toUpper {d : Nat} (hd : d < 16) :
    digitValue? 16 (hexDigit d).toUpper = some d := by
  interval_cases d <;> rfl

theorem foldDigits?_toUpper {s : List Char}
    (hs : ∀ c ∈ s, ∃ d < 16, c = hexDigit d) (value : Nat) :
    foldDigits? 16 value (s.map Char.toUpper) = foldDigits? 16 value s := by
  induction s generalizing value with
  | nil => rfl
  | cons c s ih =>
      obtain ⟨⟨d, hd, rfl⟩, hmore⟩ := List.forall_mem_cons.mp hs
      simp only [List.map_cons, foldDigits?, digitValue?_toUpper hd,
        digitValue?_hexDigit (Nat.le_refl 16) hd]
      exact ih hmore _

theorem foldDigits?_zeros (n : Nat) (s : List Char) :
    foldDigits? 16 0 (List.replicate n '0' ++ s) = foldDigits? 16 0 s := by
  induction n with
  | zero => rfl
  | succ n ih => exact ih

/-- The name of a character is its number in hexadecimal. -/
theorem exists_codePointName (c : Char) :
    ∃ digits, codePointName c = String.ofList ('U' :: '+' :: digits) ∧
      readDigits? 16 digits = some c.toNat := by
  refine ⟨_, rfl, ?_⟩
  have hhex : ∀ d ∈ hex c.toNat, ∃ n < 16, d = hexDigit n :=
    fun d hd => exists_of_mem_digits (by decide) hd
  rw [readDigits?_eq (by simp [padStart, hex, digits_ne_nil]), padStart,
    foldDigits?_zeros,
    foldDigits?_toUpper hhex]
  exact foldDigits?_digits (by decide) (by decide) _

end Encoding

namespace Source

theorem reencode_eq_ok_iff {source encoded : Source} {text : List Char} :
    source.reencode text = .ok encoded ↔
      encoded.encoding = source.encoding ∧
        source.encoding.encode text = .ok encoded.bytes := by
  obtain ⟨bytes, encoding⟩ := encoded
  unfold reencode
  cases source.encoding.encode text with
  | error c => simp [Except.map]
  | ok found =>
      simp only [Except.map, Except.ok.injEq, Source.mk.injEq]
      rw [eq_comm (a := encoding)]
      exact and_comm

theorem reencode_text_iff (source : Source) :
    source.reencode source.text = .ok source ↔
      source.encoding.IsFormed source.bytes := by
  rw [reencode_eq_ok_iff, Encoding.encode_eq_ok_iff_decode]
  simp only [text, and_true, true_and]

end Source

/-- Encoding yields the well-formed bytes that decode to the text, or fails
with the first character outside the repertoire, which its error names; the
text of a source is encoded back as the source exactly if the bytes are well
formed. -/
theorem Encoding.decode_inverts_encode (encoding : Encoding) (text : List Char)
    (bytes : List UInt8) :
    (encoding.encode text = .ok bytes ↔
      encoding.IsFormed bytes ∧ (Source.mk bytes encoding).text = text) ∧
    ((∃ c, encoding.encode text = .error c) ↔ ∃ c ∈ text, ¬ encoding.Holds c) ∧
    (∀ c, encoding.encode text = .error c ↔
      ∃ before after, text = before ++ c :: after ∧
        (∀ d ∈ before, encoding.Holds d) ∧
        ¬ encoding.Holds c) ∧
    (∀ c, ∃ digits, readDigits? 16 digits = some c.toNat ∧
      PrintError.unrepresentable encoding c = .encoding encoding.name
        (String.ofList ('U' :: '+' :: digits) ++ " has no mapping")) ∧
    ((Source.mk bytes encoding).reencode (Source.mk bytes encoding).text =
      .ok ⟨bytes, encoding⟩ ↔ encoding.IsFormed bytes) := by
  refine ⟨encode_eq_ok_iff_decode, ?_, fun c =>
    encode_eq_error_iff_first, fun c => ?_,
    Source.reencode_text_iff _⟩
  · rw [encode_eq_error_iff, lacks_iff]
  · obtain ⟨digits, hname, hread⟩ := exists_codePointName c
    refine ⟨digits, hread, ?_⟩
    rw [PrintError.unrepresentable, hname]

end Reparse
