import Reparse.Source.Basic
import Reparse.Proofs.Text.Utf8

/-!
# Encoded texts decode to themselves

Encoding fails exactly when a character lies outside the repertoire, and what
it yields decodes to the text it was made of.  For raw bytes and US-ASCII every
character of the repertoire is one byte.
-/

namespace Reparse

open Text

namespace Encoding

/-- Some character of the text lies outside the repertoire. -/
def Lacks (encoding : Encoding) (text : List Char) : Prop :=
  ∃ c ∈ text, encoding.represents c = false

/-- ASCII lies in every repertoire. -/
theorem represents_of_ascii {encoding : Encoding} {c : Char}
    (hc : c.toNat < 0x80) :
    encoding.represents c = true := by
  cases encoding with
  | utf8 => rfl
  | usAscii => exact decide_eq_true hc
  | binary => exact decide_eq_true (Nat.lt_trans hc (by decide))

theorem encodes_eq_false_iff {encoding : Encoding} {text : List Char} :
    encoding.encodes text = false ↔ encoding.Lacks text := by
  simp [encodes, Lacks]

theorem encode_eq_of_lacks {encoding : Encoding} {text : List Char}
    (hlacks : encoding.Lacks text) :
    ∃ c, encoding.encode text = .error c := by
  unfold encode
  cases hfind : text.find? fun c => !encoding.represents c with
  | none =>
      obtain ⟨c, hmem, hout⟩ := hlacks
      have hin := List.find?_eq_none.mp hfind c hmem
      simp [hout] at hin
  | some c => exact ⟨c, rfl⟩

theorem encode_eq_of_not_lacks {encoding : Encoding} {text : List Char}
    (hrep : ¬ encoding.Lacks text) :
    encoding.encode text = .ok (text.flatMap encoding.encodeChar) := by
  unfold encode
  cases hfind : text.find? fun c => !encoding.represents c with
  | none => rfl
  | some c =>
      have hout := List.find?_some hfind
      exact
        absurd ⟨c, List.mem_of_find?_eq_some hfind, by simpa using hout⟩ hrep

theorem encode_eq_error_iff {encoding : Encoding} {text : List Char} :
    (∃ c, encoding.encode text = .error c) ↔ encoding.Lacks text := by
  constructor
  · rintro ⟨c, herror⟩
    by_contra hrep
    rw [encode_eq_of_not_lacks hrep] at herror
    cases herror
  · exact encode_eq_of_lacks

theorem encode_eq_ok_iff {encoding : Encoding} {text : List Char} :
    (∃ bytes, encoding.encode text = .ok bytes) ↔ ¬ encoding.Lacks text := by
  rw [← encode_eq_error_iff]
  cases encoding.encode text <;> simp

/-- A text below U+0080 has the same bytes in US-ASCII and in UTF-8. -/
theorem flatMap_encodeChar_usAscii {text : List Char}
    (hrep : ¬ usAscii.Lacks text) :
    text.flatMap usAscii.encodeChar = Utf8.encode text := by
  unfold Utf8.encode
  apply List.flatMap_congr
  intro c hmem
  have hlow : c.toNat < 0x80 := by
    by_contra hhigh
    exact hrep ⟨c, hmem, by simpa [represents] using hhigh⟩
  simp [encodeChar, Utf8.encodeChar, hlow]

theorem decode_flatMap_encodeChar_binary {text : List Char}
    (hrep : ¬ binary.Lacks text) :
    binary.decode (text.flatMap binary.encodeChar) = text := by
  induction text with
  | nil => rfl
  | cons c text ih =>
      have hlow : c.toNat < 0x100 := by
        by_contra hhigh
        exact hrep ⟨c, List.mem_cons_self, by simpa [represents] using hhigh⟩
      have htail : ¬ binary.Lacks text := fun ⟨d, hmem, hout⟩ =>
        hrep ⟨d, List.mem_cons_of_mem c hmem, hout⟩
      have hchar : Char.ofNat (UInt8.ofNat c.toNat).toNat = c := by
        rw [Utf8.toNat_ofNat_of_lt hlow, Char.ofNat_toNat]
      have hrest := ih htail
      simp only [decode] at hrest ⊢
      simp only [List.flatMap_cons, encodeChar, List.singleton_append,
        List.map_cons, hchar]
      exact congrArg (c :: ·) hrest

/-- What encoding yields decodes to the text. -/
theorem decode_of_encode {encoding : Encoding} {text : List Char}
    {bytes : List UInt8} (hencode : encoding.encode text = .ok bytes) :
    encoding.decode bytes = text := by
  have hrep : ¬ encoding.Lacks text := by
    intro hlacks
    obtain ⟨c, herror⟩ := encode_eq_of_lacks hlacks
    rw [herror] at hencode
    cases hencode
  rw [encode_eq_of_not_lacks hrep, Except.ok.injEq] at hencode
  subst hencode
  cases encoding with
  | utf8 => exact Utf8.decodeLossy_encode text
  | usAscii =>
      rw [flatMap_encodeChar_usAscii hrep]
      exact Utf8.decodeLossy_encode text
  | binary => exact decode_flatMap_encodeChar_binary hrep

end Encoding

namespace Source

theorem reencode_eq_error_iff {source : Source} {text : List Char} :
    (∃ c, source.reencode text = .error c) ↔ source.encoding.Lacks text := by
  rw [← Encoding.encode_eq_error_iff]
  unfold reencode
  cases source.encoding.encode text <;> simp [Except.map]

/-- A text in the encoding of another source is the text of the source it
makes. -/
theorem text_of_reencode {source encoded : Source} {text : List Char}
    (hencode : source.reencode text = .ok encoded) :
    encoded.text = text ∧ encoded.encoding = source.encoding := by
  unfold reencode at hencode
  cases hbytes : source.encoding.encode text with
  | error c =>
      rw [hbytes] at hencode
      cases hencode
  | ok bytes =>
      rw [hbytes] at hencode
      cases hencode
      exact ⟨Encoding.decode_of_encode hbytes, rfl⟩

theorem length_text_le (source : Source) :
    source.text.length ≤ source.bytes.length := by
  unfold text Encoding.decode
  split
  · rw [List.length_map]
  · exact Text.Utf8.length_decodeLossy_le source.bytes

end Source
end Reparse
