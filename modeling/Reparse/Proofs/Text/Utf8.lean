import Reparse.Text.Utf8
import Mathlib.Tactic

/-!
# UTF-8 reads back

The bytes of a character begin with a lead byte that announces the others, so
the decoder takes exactly them off any byte string they begin.  Strict and
lossy decoding therefore both return the text that was encoded.
-/

namespace Reparse.Text.Utf8

theorem toNat_ofNat_of_lt {n : Nat} (hn : n < 256) :
    (UInt8.ofNat n).toNat = n := by
  simp only [UInt8.toNat_ofNat']
  omega

/-- A code point is below U+110000 and no surrogate. -/
theorem toNat_bounds (c : Char) :
    c.toNat < 0xD800 ∨ (0xDFFF < c.toNat ∧ c.toNat < 0x110000) :=
  c.valid

theorem ofNat_of_eq (c : Char) {n : Nat} (hn : n = c.toNat) :
    Char.ofNat n = c := by
  rw [hn, Char.ofNat_toNat]

/-- A continuation byte within its bounds adds six bits to the value. -/
theorem tails_cons {owed low high value : Nat} {k : Nat} {s : List UInt8}
    (hk : k < 256) (hlow : low ≤ k) (hhigh : k ≤ high) :
    tails (owed + 1) low high value (UInt8.ofNat k :: s) =
      tails owed 0x80 0xBF (value * 64 + (k - 0x80)) s := by
  simp [tails, isTail, toNat_ofNat_of_lt hk, hlow, hhigh]

/-- The bytes of a character are read as one unit, whatever follows them. -/
theorem next_encodeChar (c : Char) :
    ∃ b more, encodeChar c = b :: more ∧
      ∀ rest, next b (more ++ rest) = .char c rest := by
  have hbounds := toNat_bounds c
  unfold encodeChar
  by_cases h1 : c.toNat < 0x80
  · refine ⟨_, _, if_pos h1, fun rest => ?_⟩
    have hlead : lead? c.toNat = some ⟨0, 0x80, 0xBF, c.toNat⟩ := if_pos h1
    simp only [next, toNat_ofNat_of_lt (by omega : c.toNat < 256), hlead,
      tails, List.nil_append, Char.ofNat_toNat]
  by_cases h2 : c.toNat < 0x800
  · refine ⟨_, _, (if_neg h1).trans (if_pos h2), fun rest => ?_⟩
    have hlead : lead? (0xC0 + c.toNat / 64) =
        some ⟨1, 0x80, 0xBF, c.toNat / 64⟩ := by
      unfold lead?
      rw [if_neg (by omega), if_neg (by omega), if_pos (by omega)]
      simp
    simp only [next, toNat_ofNat_of_lt (by omega : 0xC0 + c.toNat / 64 < 256),
      hlead, List.cons_append, List.nil_append]
    rw [tails_cons (by omega) (by omega) (by omega), tails]
    rw [ofNat_of_eq c (by omega)]
  by_cases h3 : c.toNat < 0x10000
  · refine ⟨_, _, (if_neg h1).trans ((if_neg h2).trans (if_pos h3)),
      fun rest => ?_⟩
    have hlead : ∃ low high, lead? (0xE0 + c.toNat / 4096) =
        some ⟨2, low, high, c.toNat / 4096⟩ ∧
          low ≤ 0x80 + c.toNat / 64 % 64 ∧
            0x80 + c.toNat / 64 % 64 ≤ high := by
      unfold lead?
      rw [if_neg (by omega), if_neg (by omega), if_neg (by omega)]
      split
      · exact ⟨0xA0, 0xBF, by simp; omega, by omega, by omega⟩
      split
      · exact ⟨0x80, 0x9F, by simp; omega, by omega, by omega⟩
      rw [if_pos (by omega)]
      exact ⟨0x80, 0xBF, by simp, by omega, by omega⟩
    obtain ⟨low, high, hlead, hlow, hhigh⟩ := hlead
    simp only [next,
      toNat_ofNat_of_lt (by omega : 0xE0 + c.toNat / 4096 < 256), hlead,
      List.cons_append, List.nil_append]
    rw [tails_cons (by omega) hlow hhigh,
      tails_cons (by omega) (by omega) (by omega), tails]
    rw [ofNat_of_eq c (by omega)]
  · refine ⟨_, _, (if_neg h1).trans ((if_neg h2).trans (if_neg h3)),
      fun rest => ?_⟩
    have hlead : ∃ low high, lead? (0xF0 + c.toNat / 262144) =
        some ⟨3, low, high, c.toNat / 262144⟩ ∧
          low ≤ 0x80 + c.toNat / 4096 % 64 ∧
            0x80 + c.toNat / 4096 % 64 ≤ high := by
      unfold lead?
      rw [if_neg (by omega), if_neg (by omega), if_neg (by omega),
        if_neg (by omega),
        if_neg (by omega), if_neg (by omega)]
      split
      · exact ⟨0x90, 0xBF, by simp; omega, by omega, by omega⟩
      split
      · exact ⟨0x80, 0xBF, by simp, by omega, by omega⟩
      rw [if_pos (by omega)]
      exact ⟨0x80, 0x8F, by simp; omega, by omega, by omega⟩
    obtain ⟨low, high, hlead, hlow, hhigh⟩ := hlead
    simp only [next,
      toNat_ofNat_of_lt (by omega : 0xF0 + c.toNat / 262144 < 256), hlead,
      List.cons_append, List.nil_append]
    rw [tails_cons (by omega) hlow hhigh,
      tails_cons (by omega) (by omega) (by omega),
      tails_cons (by omega) (by omega) (by omega), tails]
    rw [ofNat_of_eq c (by omega)]

theorem encode_cons (c : Char) (s : List Char) :
    encode (c :: s) = encodeChar c ++ encode s := by
  simp [encode]

theorem decodeLossy_of_next {b : UInt8} {s rest : List UInt8} {c : Char}
    (hnext : next b s = .char c rest) :
    decodeLossy (b :: s) = c :: decodeLossy rest := by
  rw [decodeLossy]
  split
  · next hchar =>
      rw [hnext] at hchar
      cases hchar
      rfl
  · next hill =>
      rw [hnext] at hill
      cases hill

theorem decode?_of_next {b : UInt8} {s rest : List UInt8} {c : Char}
    (hnext : next b s = .char c rest) :
    decode? (b :: s) = (decode? rest).map (c :: ·) := by
  rw [decode?]
  split
  · next hchar =>
      rw [hnext] at hchar
      cases hchar
      rfl
  · next hill =>
      rw [hnext] at hill
      cases hill

theorem decodeLossy_encode (s : List Char) : decodeLossy (encode s) = s := by
  induction s with
  | nil => simp [encode, decodeLossy]
  | cons c s ih =>
      obtain ⟨b, more, hbytes, hnext⟩ := next_encodeChar c
      rw [encode_cons, hbytes, List.cons_append,
        decodeLossy_of_next (hnext (encode s)), ih]

theorem decode?_encode (s : List Char) : decode? (encode s) = some s := by
  induction s with
  | nil => simp [encode, decode?]
  | cons c s ih =>
      obtain ⟨b, more, hbytes, hnext⟩ := next_encodeChar c
      rw [encode_cons, hbytes, List.cons_append,
        decode?_of_next (hnext (encode s)), ih, Option.map_some]

/-- Every character is decoded from at least one byte. -/
theorem length_decodeLossy_le (s : List UInt8) :
    (decodeLossy s).length ≤ s.length := by
  fun_induction decodeLossy s with
  | case1 => exact Nat.le_refl 0
  | case2 b s c rest hnext ih =>
      have hshorter := length_rest_next_le b s
      rw [hnext, Unit.rest] at hshorter
      simp only [List.length_cons]
      omega
  | case3 b s rest hnext ih =>
      have hshorter := length_rest_next_le b s
      rw [hnext, Unit.rest] at hshorter
      simp only [List.length_cons]
      omega

end Reparse.Text.Utf8
