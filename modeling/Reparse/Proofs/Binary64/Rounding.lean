import Reparse.Binary64.Shortest
import Reparse.Proofs.Binary64.Sign

/-!
# The interval that rounds to a number

A quotient in the rounding interval of a number is rounded to that number, and
a decimal in it is read as that number.  The scale that rounding finds is the
one of the number, except just below a power of two, where the significand
rounds up and carries into the exponent field.
-/

namespace Reparse.Binary64

/-! ## Quotients -/

/-- The nearest integer, where a quotient halfway between two belongs to an
even one. -/
theorem roundQuotient_eq {num den m : Nat} (hden : 0 < den)
    (hlow : 2 * (m * den) ≤ 2 * num + den)
    (hhigh : 2 * num ≤ 2 * (m * den) + den)
    (htie : 2 * num + den = 2 * (m * den) ∨ 2 * num = 2 * (m * den) + den →
      m % 2 = 0) :
    roundQuotient num den = m := by
  have hsplit : den * (num / den) + num % den = num := Nat.div_add_mod num den
  have hrest : num % den < den := Nat.mod_lt _ hden
  unfold roundQuotient
  generalize num / den = q at *
  generalize num % den = r at *
  have hcases : q = m ∨ q + 1 = m := by
    have hle : q < m + 1 := by
      by_contra hgt
      have hmul : (m + 1) * den ≤ q * den := Nat.mul_le_mul_right _ (by omega)
      rw [Nat.add_mul, Nat.mul_comm q] at hmul
      omega
    have hge : m < q + 2 := by
      by_contra hlt
      have hmul : (q + 2) * den ≤ m * den := Nat.mul_le_mul_right _ (by omega)
      rw [Nat.add_mul, Nat.mul_comm q] at hmul
      omega
    omega
  rcases hcases with rfl | rfl
  · rw [Nat.mul_comm q] at hlow hhigh htie
    rw [if_neg]
    omega
  · rw [Nat.add_mul, Nat.mul_comm q] at hlow hhigh htie
    rw [if_pos]
    omega

/-- The scale leaves 53 bits before the point, or is zero. -/
structure IsScale (num den scale : Nat) : Prop where
  below : num < 2 ^ 53 * (den * 2 ^ scale)
  above : scale = 0 ∨ 2 ^ 52 * (den * 2 ^ scale) ≤ num

theorem isScale_log2 {num den : Nat} (places : Nat) (hnum : num ≠ 0)
    (hden : den ≠ 0) :
    let low := Nat.log2 num + places - 52 - Nat.log2 den
    IsScale (num * 2 ^ places) den
      (if num * 2 ^ places < 2 ^ 52 * (den * 2 ^ low) then low - 1
        else low) := by
  intro low
  have hnumLow : 2 ^ Nat.log2 num ≤ num := Nat.log2_self_le hnum
  have hnumHigh : num < 2 ^ (Nat.log2 num + 1) := Nat.lt_log2_self
  have hdenLow : 2 ^ Nat.log2 den ≤ den := Nat.log2_self_le hden
  have hdenHigh : den < 2 ^ (Nat.log2 den + 1) := Nat.lt_log2_self
  have hbelow : num * 2 ^ places < 2 ^ 53 * (den * 2 ^ low) :=
    calc num * 2 ^ places < 2 ^ (Nat.log2 num + 1) * 2 ^ places := by gcongr
      _ = 2 ^ (Nat.log2 num + 1 + places) := (pow_add _ _ _).symm
      _ ≤ 2 ^ (53 + (Nat.log2 den + low)) :=
        Nat.pow_le_pow_right (by decide) (by omega)
      _ = 2 ^ 53 * (2 ^ Nat.log2 den * 2 ^ low) := by rw [pow_add, pow_add]
      _ ≤ 2 ^ 53 * (den * 2 ^ low) := by gcongr
  by_cases hsmall : num * 2 ^ places < 2 ^ 52 * (den * 2 ^ low)
  · rw [if_pos hsmall]
    by_cases hzero : low = 0
    · rw [hzero] at hbelow ⊢
      exact ⟨hbelow, .inl rfl⟩
    · obtain ⟨less, hless⟩ : ∃ less, low = less + 1 := ⟨low - 1, by omega⟩
      have hlog : Nat.log2 num + places = 53 + (Nat.log2 den + less) := by
        omega
      rw [hless] at hsmall ⊢
      rw [Nat.add_sub_cancel]
      constructor
      · rw [pow_succ] at hsmall
        calc num * 2 ^ places < 2 ^ 52 * (den * (2 ^ less * 2)) := hsmall
          _ = 2 ^ 53 * (den * 2 ^ less) := by ring
      · refine .inr ?_
        calc 2 ^ 52 * (den * 2 ^ less) ≤
          2 ^ 52 * (2 ^ (Nat.log2 den + 1) * 2 ^ less) := by gcongr
          _ = 2 ^ (53 + (Nat.log2 den + less)) := by ring
          _ = 2 ^ Nat.log2 num * 2 ^ places := by rw [← hlog, pow_add]
          _ ≤ num * 2 ^ places := by gcongr
  · rw [if_neg hsmall]
    exact ⟨hbelow, .inr (by omega)⟩

theorem IsScale.unique {num den s t : Nat} (hs : IsScale num den s)
    (ht : IsScale num den t) :
    s = t := by
  have hle : ∀ {s t : Nat}, IsScale num den s → IsScale num den t → t ≤ s := by
    intro s t hs ht
    by_contra hlt
    rcases ht.above with hzero | habove
    · omega
    · have hpow : (2 : Nat) ^ (s + 1) ≤ 2 ^ t := by gcongr <;> omega
      have hmore : 2 ^ 52 * (den * 2 ^ (s + 1)) ≤ 2 ^ 52 * (den * 2 ^ t) := by
        gcongr
      have hdouble :
          2 ^ 52 * (den * 2 ^ (s + 1)) = 2 ^ 53 * (den * 2 ^ s) := by ring
      have := hs.below
      omega
  exact Nat.le_antisymm (hle ht hs) (hle hs ht)


/-- Rounding a quotient finds its scale and rounds to an integer there. -/
theorem magnitudeOfRatio_of_isScale {num den scale places : Nat}
    (hplaces : places = 1074) (hnum : num ≠ 0) (hden : den ≠ 0)
    (hscale : IsScale (num * 2 ^ places) den scale) :
    magnitudeOfRatio num den =
      min (scale * 2 ^ 52 + roundQuotient (num * 2 ^ places) (den * 2 ^ scale))
        infinityMagnitude := by
  have hunique := (isScale_log2 places hnum hden).unique hscale
  unfold magnitudeOfRatio
  rw [if_neg (by omega), ← hplaces, ← hunique]
  rfl

/-! ## Numbers -/

section Numbers

variable {x : Binary64}

theorem significand_lt (x : Binary64) : x.significand < 2 ^ 53 := by
  unfold significand
  simp only [Nat.pow_eq]
  split <;> omega

theorem biasedScale_or_significand (x : Binary64) :
    x.biasedScale = 0 ∨ 2 ^ 52 ≤ x.significand := by
  unfold biasedScale significand
  simp only [Nat.pow_eq]
  split <;> omega

theorem magnitude_eq (x : Binary64) :
    x.biasedScale * 2 ^ 52 + x.significand = x.magnitude := by
  unfold biasedScale significand
  simp only [Nat.pow_eq]
  split <;> omega

theorem significand_ne_zero (hmagnitude : x.magnitude ≠ 0) :
    x.significand ≠ 0 := by
  have hsplit := x.magnitude_eq
  have hcanonical := x.biasedScale_or_significand
  omega

/-- The quotient `num / den`, in last places of a number, rounds to its
significand. -/
structure Rounds (num den significand scale : Nat) : Prop where
  low : 4 * (significand * (den * 2 ^ scale)) ≤
    4 * num + (if significand = 2 ^ 52 ∧ 0 < scale then 1 else 2) *
      (den * 2 ^ scale)
  high :
    4 * num ≤ 4 * (significand * (den * 2 ^ scale)) + 2 * (den * 2 ^ scale)
  even :
    4 * (significand * (den * 2 ^ scale)) = 4 * num + 2 * (den * 2 ^ scale) ∨
    4 * num = 4 * (significand * (den * 2 ^ scale)) + 2 * (den * 2 ^ scale) →
      significand % 2 = 0

theorem magnitudeOfRatio_of_rounds {num den places : Nat}
    (hplaces : places = 1074) (hfinite : x.isFinite = true) (hnum : num ≠ 0)
    (hden : den ≠ 0)
    (hrounds : Rounds (num * 2 ^ places) den x.significand x.biasedScale) :
    magnitudeOfRatio num den = x.magnitude := by
  have hsize := x.significand_lt
  have hcanonical := x.biasedScale_or_significand
  have hsplit := x.magnitude_eq
  have hlimit : x.magnitude < infinityMagnitude := by
    simpa [isFinite] using hfinite
  obtain ⟨hlow, hhigh, heven⟩ := hrounds
  generalize x.significand = m at *
  generalize x.biasedScale = s at *
  have hunit : 0 < den * 2 ^ s := Nat.mul_pos (by omega) (Nat.two_pow_pos s)
  by_cases hhere : s = 0 ∨ 2 ^ 52 * (den * 2 ^ s) ≤ num * 2 ^ places
  · have hscale : IsScale (num * 2 ^ places) den s := by
      refine ⟨?_, hhere⟩
      have hmul :
          m * (den * 2 ^ s) + den * 2 ^ s ≤ 2 ^ 53 * (den * 2 ^ s) := by
        rw [← Nat.succ_mul]
        exact Nat.mul_le_mul_right _ hsize
      omega
    have hround : roundQuotient (num * 2 ^ places) (den * 2 ^ s) = m := by
      refine roundQuotient_eq hunit ?_ (by omega) fun htie => heven (by omega)
      split at hlow <;> omega
    rw [magnitudeOfRatio_of_isScale hplaces hnum hden hscale, hround, hsplit]
    exact Nat.min_eq_left hlimit.le
  · -- Just below a power of two the quotient has a scale less and rounds up
    -- to `2 ^ 53`.
    obtain ⟨hpositive, hless⟩ := not_or.mp hhere
    obtain ⟨t, rfl⟩ : ∃ t, s = t + 1 := ⟨s - 1, by omega⟩
    have hm : m = 2 ^ 52 := by
      have hge : 2 ^ 52 ≤ m := by omega
      by_contra hne
      have hmul :
          (2 ^ 52 + 1) * (den * 2 ^ (t + 1)) ≤ m * (den * 2 ^ (t + 1)) :=
        Nat.mul_le_mul_right _ (by omega)
      rw [if_neg (by omega)] at hlow
      omega
    subst hm
    rw [if_pos ⟨rfl, by omega⟩] at hlow
    have hdouble : den * 2 ^ (t + 1) = 2 * (den * 2 ^ t) := by ring
    rw [hdouble] at hlow hless
    have hscale : IsScale (num * 2 ^ places) den t :=
      ⟨by omega, .inr (by omega)⟩
    have hround : roundQuotient (num * 2 ^ places) (den * 2 ^ t) = 2 ^ 53 :=
      roundQuotient_eq (by omega) (by omega) (by omega) fun _ => by norm_num
    rw [magnitudeOfRatio_of_isScale hplaces hnum hden hscale, hround, ← hsplit]
    have hcarry : t * 2 ^ 52 + 2 ^ 53 = (t + 1) * 2 ^ 52 + 2 ^ 52 := by ring
    rw [hcarry, hsplit]
    exact Nat.min_eq_left hlimit.le

/-- A value lies in the interval; at an end it does so only if the interval is
closed. -/
structure Interval.Admits (i : Interval) (value : ℚ) : Prop where
  low : (i.low : ℚ) ≤ value * i.unit
  high : value * i.unit ≤ i.high
  closed : value * i.unit = i.low ∨ value * i.unit = i.high → i.closed = true

/-- How far the lower end of the interval lies below the number, in quarters of
the last place. -/
def belowOf (x : Binary64) : Nat :=
  if x.significand = 2 ^ 52 ∧ 0 < x.biasedScale then 1 else 2

theorem low_interval (x : Binary64) :
    x.interval.low = (4 * x.significand - x.belowOf) * 2 ^ x.biasedScale := rfl

theorem high_interval (x : Binary64) :
    x.interval.high = (4 * x.significand + 2) * 2 ^ x.biasedScale := rfl

theorem unit_interval {places : Nat} (hplaces : places = 1074) (x : Binary64) :
    x.interval.unit = 4 * 2 ^ places := by
  simp only [interval, ← hplaces]
  rfl

theorem closed_interval (x : Binary64) :
    x.interval.closed = decide (x.significand % 2 = 0) := rfl

/-- The bounds of a quotient in an interval, without fractions. -/
theorem Interval.Admits.bounds {i : Interval} {num den : Nat} (hden : den ≠ 0)
    (hadmits : i.Admits (num / den)) :
    i.low * den ≤ num * i.unit ∧ num * i.unit ≤ i.high * den ∧
      (num * i.unit = i.low * den ∨ num * i.unit = i.high * den →
        i.closed = true) := by
  obtain ⟨hlow, hhigh, hclosed⟩ := hadmits
  have hpositive : (0 : ℚ) < den := by exact_mod_cast Nat.pos_of_ne_zero hden
  rw [div_mul_eq_mul_div] at hlow hhigh hclosed
  rw [le_div_iff₀ hpositive] at hlow
  rw [div_le_iff₀ hpositive] at hhigh
  rw [div_eq_iff hpositive.ne', div_eq_iff hpositive.ne'] at hclosed
  exact ⟨by exact_mod_cast hlow, by exact_mod_cast hhigh,
    by exact_mod_cast hclosed⟩

theorem rounds_of_admits {num den places : Nat} (hplaces : places = 1074)
    (hden : den ≠ 0) (hmagnitude : x.magnitude ≠ 0)
    (hadmits : x.interval.Admits (num / den)) :
    Rounds (num * 2 ^ places) den x.significand x.biasedScale := by
  obtain ⟨hlow, hhigh, hclosed⟩ := hadmits.bounds hden
  have hpositive := significand_ne_zero hmagnitude
  rw [unit_interval hplaces] at hlow hhigh hclosed
  rw [low_interval] at hlow hclosed
  rw [high_interval] at hhigh hclosed
  rw [closed_interval, decide_eq_true_eq] at hclosed
  unfold belowOf at hlow hclosed
  have hnum : num * (4 * 2 ^ places) = 4 * (num * 2 ^ places) := by ring
  generalize num * 2 ^ places = n at *
  generalize x.significand = m at *
  have hunit :
      ∀ k, k * 2 ^ x.biasedScale * den = k * (den * 2 ^ x.biasedScale) := by
    intro k
    ring
  rw [hnum, hunit] at hlow hhigh
  rw [hnum, hunit, hunit] at hclosed
  generalize hgrain : den * 2 ^ x.biasedScale = unit at *
  have hhigh' : (4 * m + 2) * unit = 4 * (m * unit) + 2 * unit := by ring
  have hlow' :
      ∀ below ≤ 4 * m, (4 * m - below) * unit + below * unit =
        4 * (m * unit) := by
    intro below hbelow
    rw [← Nat.add_mul, Nat.sub_add_cancel hbelow, Nat.mul_assoc]
  rw [hhigh'] at hhigh hclosed
  by_cases hcorner : m = 2 ^ 52 ∧ 0 < x.biasedScale
  · rw [if_pos hcorner] at hlow hclosed
    have hbelow := hlow' 1 (by omega)
    constructor <;> rw [hgrain]
    · rw [if_pos hcorner]
      omega
    · omega
    · omega
  · rw [if_neg hcorner] at hlow hclosed
    have hbelow := hlow' 2 (by omega)
    constructor <;> rw [hgrain]
    · rw [if_neg hcorner]
      omega
    · omega
    · omega

/-- A quotient in the interval rounds to the number. -/
theorem magnitudeOfRatio_of_admits {num den : Nat}
    (hfinite : x.isFinite = true) (hmagnitude : x.magnitude ≠ 0)
    (hnum : num ≠ 0) (hden : den ≠ 0)
    (hadmits : x.interval.Admits (num / den)) :
    magnitudeOfRatio num den = x.magnitude :=
  magnitudeOfRatio_of_rounds rfl hfinite hnum hden
    (rounds_of_admits rfl hden hmagnitude hadmits)

end Numbers

end Reparse.Binary64
