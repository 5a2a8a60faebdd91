import Reparse.Binary64.Notation
import Reparse.Proofs.Binary64.Shortest

/-!
# Written numbers are read back

A finite number is written as digits with a fraction or an exponent, which
denote its shortest decimal whatever the layout.  Reading them yields the
number.
-/

namespace Reparse

open Text

/-! ## Zeros among digits -/

namespace Text

theorem foldDigits?_zeros (value n : Nat) :
    foldDigits? 10 value (List.replicate n '0') = some (value * 10 ^ n) := by
  induction n generalizing value with
  | zero => simp [foldDigits?]
  | succ n ih =>
      have hzero : digitValue? 10 '0' = some 0 := rfl
      rw [List.replicate_succ, foldDigits?, hzero]
      simp only [Nat.add_zero]
      rw [ih, pow_succ']
      congr 1
      ring

theorem foldDigits?_decimal (n : Nat) :
    foldDigits? 10 0 (decimal n) = some n :=
  foldDigits?_digits (by decide) (by decide) n

theorem readDigits?_zeros_before (zeros n : Nat) :
    readDigits? 10 (List.replicate zeros '0' ++ decimal n) = some n := by
  rw [readDigits?_eq (by simp [decimal_ne_nil]), foldDigits?_append,
    foldDigits?_zeros]
  simpa using foldDigits?_decimal n

theorem readDigits?_zeros_after (zeros n : Nat) :
    readDigits? 10 (decimal n ++ List.replicate zeros '0') =
      some (n * 10 ^ zeros) := by
  rw [readDigits?_eq (by simp [decimal_ne_nil]), foldDigits?_append,
    foldDigits?_decimal]
  exact foldDigits?_zeros n zeros

end Text

namespace Binary64

/-! ## Reading the parts of a number -/

section Parts

variable {whole fraction exponent : List Char} {n : Nat} {e : Int}

/-- The parts of a number denote a value. -/
structure Denotes (whole fraction exponent : List Char) (value : ℚ) :
    Prop where
  isDigits : IsDigits whole
  isFraction : IsFraction fraction
  isExponent : IsExponent exponent
  marked : fraction ≠ [] ∨ exponent ≠ []
  value : ∃ n e, readDigits? 10 (whole ++ fraction.drop 1) = some n ∧
    readExponent? exponent = some e ∧
      value = n * 10 ^ (e - (fraction.drop 1).length)

theorem not_digit_head_exponent (hexponent : IsExponent exponent) :
    ∀ c ∈ exponent.head?, isDigit c = false := by
  rcases hexponent with rfl | ⟨ds, -, rfl | rfl⟩ <;> simp [isDigit]

theorem readMantissa?_parts (hwhole : IsDigits whole)
    (hfraction : IsFraction fraction) (hexponent : IsExponent exponent)
    (hdigits : readDigits? 10 (whole ++ fraction.drop 1) = some n) :
    readMantissa? (whole ++ fraction ++ exponent) =
      some (⟨n, -((fraction.drop 1).length : Int)⟩, exponent) := by
  have hstop := not_digit_head_exponent hexponent
  rw [List.append_assoc]
  rcases hfraction with rfl | ⟨ds, hds, rfl⟩
  · have htake : (whole ++ exponent).takeWhile isDigit = whole :=
      takeWhile_run hwhole.2 hstop
    have hdrop : (whole ++ exponent).dropWhile isDigit = exponent :=
      dropWhile_run hwhole.2 hstop
    rw [List.drop_nil, List.append_nil] at hdigits
    rw [List.nil_append]
    simp only [readMantissa?, htake, hdrop]
    rcases hexponent with rfl | ⟨ds, -, rfl | rfl⟩ <;>
      simp [hdigits]
  · have hpoint : ∀ c ∈ ('.' :: ds ++ exponent).head?, isDigit c = false := by
      simp [isDigit]
    have htake :
        (whole ++ ('.' :: ds ++ exponent)).takeWhile isDigit = whole :=
      takeWhile_run hwhole.2 hpoint
    have hdrop :
        (whole ++ ('.' :: ds ++ exponent)).dropWhile isDigit =
          '.' :: (ds ++ exponent) :=
      dropWhile_run hwhole.2 hpoint
    have htake' : (ds ++ exponent).takeWhile isDigit = ds :=
      takeWhile_run hds.2 hstop
    have hdrop' : (ds ++ exponent).dropWhile isDigit = exponent :=
      dropWhile_run hds.2 hstop
    rw [List.drop_one, List.tail_cons] at hdigits
    simp only [readMantissa?, htake, hdrop, htake', hdrop', hdigits,
      Option.map_some, List.drop_one, List.tail_cons]

theorem readUnsigned?_parts (negative : Bool) (hwhole : IsDigits whole)
    (hfraction : IsFraction fraction) (hexponent : IsExponent exponent)
    (hdigits : readDigits? 10 (whole ++ fraction.drop 1) = some n)
    (hpower : readExponent? exponent = some e) :
    readUnsigned? negative (whole ++ fraction ++ exponent) =
      some (ofDecimal negative n (e - (fraction.drop 1).length)) := by
  unfold readUnsigned?
  rw [readMantissa?_parts hwhole hfraction hexponent hdigits]
  simp only [hpower, Option.map_some]
  congr 2
  ring

end Parts

/-! ## Layouts -/

section Layouts

variable {layout : Layout}

theorem readExponent?_decimalInt (k : Int) :
    readExponent? ('e' :: decimalInt k) = some k := by
  simp [readExponent?, readInt?_decimalInt]

theorem isExponent_decimalInt (k : Int) :
    IsExponent ('e' :: decimalInt k) := by
  right
  refine ⟨decimal k.natAbs, isDigits_decimal _, ?_⟩
  unfold decimalInt
  split
  · exact .inr rfl
  · exact .inl rfl

section Positional

variable (digits : Nat) {scale k : Int}

/-- Zeros stand between the point and the digits. -/
theorem denotes_after_zeros (hk : k = (decimal digits).length - 1 + scale)
    (hsign : k < 0) :
    Denotes ['0']
      ('.' :: (List.replicate (k.natAbs - 1) '0' ++ decimal digits)) []
      (digits * 10 ^ scale) := by
  obtain ⟨hne, hall⟩ := isDigits_decimal digits
  have hlength : 0 < (decimal digits).length := List.length_pos_iff.mpr hne
  have hzeros :
      ∀ c ∈ List.replicate (k.natAbs - 1) '0' ++ decimal digits,
        isDigit c = true := by
    intro c hc
    rcases List.mem_append.mp hc with hc | hc
    · rw [List.eq_of_mem_replicate hc]
      rfl
    · exact hall c hc
  refine ⟨⟨by simp, by simp [isDigit]⟩, .inr ⟨_, ⟨by simp [hne], hzeros⟩, rfl⟩,
    .inl rfl,
    .inl (by simp), digits, 0, ?_, rfl, ?_⟩
  · exact readDigits?_zeros_before (k.natAbs - 1 + 1) digits
  · congr 2
    simp only [List.drop_one, List.tail_cons, List.length_append,
      List.length_replicate]
    omega

/-- Zeros stand between the digits and the point. -/
theorem denotes_before_zeros {zeros : Nat} (hscale : scale = zeros) :
    Denotes (decimal digits ++ List.replicate zeros '0') ['.', '0'] []
      (digits * 10 ^ scale) := by
  obtain ⟨hne, hall⟩ := isDigits_decimal digits
  have hzeros :
      ∀ c ∈ decimal digits ++ List.replicate zeros '0', isDigit c = true := by
    intro c hc
    rcases List.mem_append.mp hc with hc | hc
    · exact hall c hc
    · rw [List.eq_of_mem_replicate hc]
      rfl
  refine ⟨⟨by simp [hne], hzeros⟩,
    .inr ⟨['0'], ⟨by simp, by simp [isDigit]⟩, rfl⟩, .inl rfl,
    .inl (by simp), digits * 10 ^ (zeros + 1), 0, ?_, rfl, ?_⟩
  · have hone :
        List.replicate (zeros + 1) '0' = List.replicate zeros '0' ++ ['0'] :=
      List.replicate_succ'
    have hread := readDigits?_zeros_after (zeros + 1) digits
    rw [hone, ← List.append_assoc] at hread
    exact hread
  · have hten : (10 : ℚ) ≠ 0 := by norm_num
    have hlast : (0 : Int) - (List.drop 1 ['.', '0']).length = -1 := rfl
    rw [hscale, zpow_natCast, hlast, zpow_neg_one, Nat.cast_mul, Nat.cast_pow,
      pow_succ]
    push_cast
    field_simp

/-- The point stands between digits. -/
theorem denotes_between {places : Nat}
    (hplaces : places < (decimal digits).length) (hpositive : 0 < places)
    (hscale : (places : Int) = (decimal digits).length + scale) :
    Denotes ((decimal digits).take places)
      ('.' :: (decimal digits).drop places) []
      (digits * 10 ^ scale) := by
  obtain ⟨hne, hall⟩ := isDigits_decimal digits
  have hbefore : (decimal digits).take places ≠ [] := by
    rw [ne_eq, List.take_eq_nil_iff]
    simp [hne, Nat.ne_of_gt hpositive]
  have hafter : (decimal digits).drop places ≠ [] := by
    rw [ne_eq, List.drop_eq_nil_iff]
    omega
  refine ⟨⟨hbefore, fun c hc => hall c (List.mem_of_mem_take hc)⟩,
    .inr ⟨_, ⟨hafter, fun c hc => hall c (List.mem_of_mem_drop hc)⟩, rfl⟩,
    .inl rfl,
    .inl (by simp), digits, 0, ?_, rfl, ?_⟩
  · rw [List.drop_one, List.tail_cons, List.take_append_drop]
    exact readDigits?_decimal digits
  · congr 2
    rw [List.drop_one, List.tail_cons, List.length_drop]
    omega

theorem denotes_positional (hk : k = (decimal digits).length - 1 + scale) :
    ∃ whole fraction, positional (decimal digits) k = whole ++ fraction ∧
      Denotes whole fraction [] (digits * 10 ^ scale) := by
  have hlength : 0 < (decimal digits).length :=
    List.length_pos_iff.mpr (isDigits_decimal digits).1
  unfold positional
  by_cases hsign : k < 0
  · rw [if_pos hsign]
    exact ⟨_, _, rfl, denotes_after_zeros digits hk hsign⟩
  rw [if_neg hsign]
  dsimp only
  by_cases hshort : (decimal digits).length ≤ k.natAbs + 1
  · obtain ⟨zeros, hzeros⟩ :
        ∃ zeros, k.natAbs + 1 - (decimal digits).length = zeros := ⟨_, rfl⟩
    have hfull :
        (decimal digits ++ List.replicate zeros '0').length =
          k.natAbs + 1 := by
      rw [List.length_append, List.length_replicate]
      omega
    have hscale : scale = zeros := by omega
    rw [hzeros, ← hfull, List.take_length, List.drop_length]
    exact ⟨_, _, rfl, denotes_before_zeros digits hscale⟩
  · have hzeros : k.natAbs + 1 - (decimal digits).length = 0 := by omega
    have hafter : (decimal digits).drop (k.natAbs + 1) ≠ [] := by
      rw [ne_eq, List.drop_eq_nil_iff]
      exact hshort
    rw [hzeros, List.replicate_zero, List.append_nil,
      if_neg (by simpa using hafter)]
    have hscale :
        ((k.natAbs + 1 : Nat) : Int) = (decimal digits).length + scale := by
      omega
    exact ⟨_, _, rfl,
      denotes_between digits (Nat.lt_of_not_le hshort) (Nat.succ_pos _) hscale⟩

end Positional

theorem denotes_scientific {digits : Nat} {scale k : Int}
    (hplus : layout.plus = false)
    (hk : k = (decimal digits).length - 1 + scale) :
    ∃ whole fraction exponent,
      scientific layout (decimal digits) k = whole ++ fraction ++ exponent ∧
        Denotes whole fraction exponent (digits * 10 ^ scale) := by
  have hdigits := isDigits_decimal digits
  have hread := readDigits?_decimal digits
  unfold scientific
  generalize decimal digits = ds at *
  obtain ⟨d, more, rfl, hd, hmore⟩ := hdigits.exists_cons
  have hscale : k - more.length = scale := by
    rw [List.length_cons] at hk
    push_cast at hk
    omega
  simp only [hplus, Bool.false_and, Bool.false_eq_true, if_false,
    List.nil_append, List.drop_one, List.tail_cons, List.take_succ_cons,
    List.take_zero]
  cases more with
  | nil =>
      refine ⟨[d], [], 'e' :: decimalInt k, rfl, ?_⟩
      refine ⟨⟨by simp, by simpa using hd⟩, .inl rfl, isExponent_decimalInt k,
        .inr (by simp),
        digits, k, hread, readExponent?_decimalInt k, ?_⟩
      rw [← hscale]
      rfl
  | cons c more =>
      refine ⟨[d], '.' :: c :: more, 'e' :: decimalInt k, rfl, ?_⟩
      refine ⟨⟨by simp, by simpa using hd⟩, .inr ⟨_, ⟨by simp, hmore⟩, rfl⟩,
        isExponent_decimalInt k, .inl (by simp), digits, k, hread,
        readExponent?_decimalInt k, ?_⟩
      rw [← hscale]
      rfl

end Layouts

/-! ## Written numbers -/

section Written

variable {layout : Layout} {x : Binary64}

/-- A magnitude is written in parts that read back as that magnitude, with
either sign. -/
theorem exists_parts (layout : Layout) (hplus : layout.plus = false)
    (hfinite : x.isFinite = true) :
    ∃ whole fraction exponent, writeMagnitude layout x =
      whole ++ fraction ++ exponent ∧
      IsDigits whole ∧ IsFraction fraction ∧ IsExponent exponent ∧
      (fraction ≠ [] ∨ exponent ≠ []) ∧
      ∀ negative, readUnsigned? negative (whole ++ fraction ++ exponent) =
        some (ofMagnitude negative x.magnitude) := by
  unfold writeMagnitude
  by_cases hmagnitude : x.magnitude = 0
  · rw [if_pos hmagnitude]
    have hwhole : IsDigits ['0'] := ⟨by simp, by simp [isDigit]⟩
    have hfraction : IsFraction ['.', '0'] := .inr ⟨['0'], hwhole, rfl⟩
    refine ⟨['0'], ['.', '0'], [], rfl, hwhole, hfraction, .inl rfl,
      .inl (by simp),
      fun negative => ?_⟩
    rw [readUnsigned?_parts negative hwhole hfraction (.inl rfl) (n := 0)
      (e := 0) rfl rfl,
      hmagnitude]
    rfl
  · rw [if_neg hmagnitude]
    obtain ⟨-, hadmits⟩ := admits_shortest layout.tie hmagnitude
    generalize x.shortest layout.tie = d at *
    have hparts : ∃ whole fraction exponent,
        (if layout.least ≤ (decimal d.digits).length - 1 + d.scale ∧
            (decimal d.digits).length - 1 + d.scale ≤ layout.greatest then
          positional (decimal d.digits)
            ((decimal d.digits).length - 1 + d.scale)
        else scientific layout (decimal d.digits)
          ((decimal d.digits).length - 1 + d.scale)) =
            whole ++ fraction ++ exponent ∧
          Denotes whole fraction exponent (d.digits * 10 ^ d.scale) := by
      split
      · obtain ⟨whole, fraction, htext, hdenotes⟩ :=
          denotes_positional d.digits rfl
        exact ⟨whole, fraction, [], by rw [htext, List.append_nil], hdenotes⟩
      · exact denotes_scientific hplus rfl
    obtain ⟨whole, fraction, exponent, htext, hdenotes⟩ := hparts
    obtain ⟨n, e, hdigits, hpower, hvalue⟩ := hdenotes.value
    refine ⟨whole, fraction, exponent, htext, hdenotes.isDigits,
      hdenotes.isFraction, hdenotes.isExponent, hdenotes.marked,
      fun negative => ?_⟩
    rw [readUnsigned?_parts negative hdenotes.isDigits hdenotes.isFraction
      hdenotes.isExponent
      hdigits hpower]
    rw [hvalue] at hadmits
    rw [ofDecimal_of_admits negative hfinite hmagnitude hadmits]

theorem write_of_isFinite (hfinite : x.isFinite = true) :
    x.write layout =
      if x.isNegative then '-' :: writeMagnitude layout x
        else writeMagnitude layout x := by
  have hnumber : x.isNaN = false := by
    unfold isFinite at hfinite
    unfold isNaN
    simp only [decide_eq_true_eq, decide_eq_false_iff_not] at *
    omega
  unfold write
  simp [hnumber, hfinite]

theorem interval_eq_of_magnitude {y : Binary64}
    (hsame : x.magnitude = y.magnitude) :
    x.interval = y.interval := by
  unfold interval significand biasedScale
  rw [hsame]

theorem writeMagnitude_neg (x : Binary64) :
    writeMagnitude layout x.neg = writeMagnitude layout x := by
  unfold writeMagnitude shortest
  rw [interval_eq_of_magnitude x.magnitude_neg, magnitude_neg]

/-- The text of a negative number is a minus and the text of the positive
one. -/
theorem write_of_isNegative (hfinite : x.isFinite = true)
    (hsign : x.isNegative = true) :
    x.write layout = '-' :: x.neg.write layout := by
  rw [write_of_isFinite hfinite, write_of_isFinite (by rwa [isFinite_neg]),
    isNegative_neg, hsign, writeMagnitude_neg]
  rfl

/-- A finite number is read back from its text. -/
theorem read?_write (hplus : layout.plus = false)
    (hfinite : x.isFinite = true) :
    read? (x.write layout) = some x := by
  obtain ⟨whole, fraction, exponent, htext, ⟨hne, hdigits⟩, -, -, -, hread⟩ :=
    exists_parts layout hplus hfinite
  rw [write_of_isFinite hfinite, htext]
  by_cases hsign : x.isNegative = true
  · rw [if_pos hsign]
    have hself := x.ofMagnitude_self
    rw [hsign] at hself
    simp only [read?]
    rw [hread true, hself]
  · rw [if_neg hsign]
    have hself := x.ofMagnitude_self
    rw [Bool.not_eq_true] at hsign
    rw [hsign] at hself
    rw [← hself, ← hread false]
    obtain ⟨c, whole, rfl⟩ := List.exists_cons_of_ne_nil hne
    have hc : isDigit c = true := hdigits c List.mem_cons_self
    unfold read?
    split
    · next heq =>
        rw [List.cons_append, List.cons_append, List.cons.injEq] at heq
        rw [heq.1] at hc
        cases hc
    · next heq =>
        rw [List.cons_append, List.cons_append, List.cons.injEq] at heq
        rw [heq.1] at hc
        cases hc
    · rfl

end Written

end Binary64
end Reparse
