import Reparse.Proofs.Binary64.Rounding

/-!
# Decimals are read as the number they are nearest to

A decimal in the rounding interval of a positive finite number lies between
`10 ^ -400` and `10 ^ 400`, so reading it gets past the estimates of its size
and to the rounding of its quotient.
-/

namespace Reparse.Binary64

variable {x : Binary64} {value : ℚ}

theorem biasedScale_le (hfinite : x.isFinite = true) :
    x.biasedScale ≤ 2045 := by
  have hsplit := x.magnitude_eq
  have hcanonical := x.biasedScale_or_significand
  have hlimit : x.magnitude < infinityMagnitude := by
    simpa [isFinite] using hfinite
  have hinfinity : infinityMagnitude = 2047 * 2 ^ 52 := rfl
  omega

/-- No power of two in the range of the format is as large as this power of
ten. -/
theorem two_pow_lt_ten_pow {n cut : Nat} (hn : n ≤ 3 * cut) (hcut : cut ≠ 0) :
    (2 : ℚ) ^ n < 10 ^ cut :=
  calc (2 : ℚ) ^ n ≤ 2 ^ (3 * cut) := by
        gcongr
        norm_num
    _ = 8 ^ cut := by
        rw [pow_mul]
        norm_num
    _ < 10 ^ cut := by
        gcongr
        norm_num

theorem four_mul_two_pow (places : Nat) :
    (4 : ℚ) * 2 ^ places = 2 ^ (places + 2) := by
  rw [pow_add]
  ring

/-- A number in the interval of a finite one has fewer than `cut` places before
the point. -/
theorem lt_pow_of_admits {cut : Nat} (hcut : cut = 400)
    (hfinite : x.isFinite = true) (hadmits : x.interval.Admits value) :
    value < 10 ^ cut := by
  obtain ⟨places, hplaces⟩ : ∃ places, places = 1074 := ⟨_, rfl⟩
  have hscale := biasedScale_le hfinite
  have hhigh := hadmits.high
  rw [unit_interval hplaces, high_interval] at hhigh
  have hsize : 4 * x.significand + 2 ≤ 2 ^ 55 := by
    have hlt := x.significand_lt
    omega
  have hbound : value * 2 ^ (places + 2) ≤ 2 ^ (55 + x.biasedScale) :=
    calc value * 2 ^ (places + 2)
        = value * ((4 * 2 ^ places : ℕ) : ℚ) := by
          rw [← four_mul_two_pow]
          push_cast
          rfl
      _ ≤ ((4 * x.significand + 2 : ℕ) : ℚ) * 2 ^ x.biasedScale := by
          exact_mod_cast hhigh
      _ ≤ 2 ^ 55 * 2 ^ x.biasedScale := by
          gcongr
          exact_mod_cast hsize
      _ = 2 ^ (55 + x.biasedScale) := (pow_add _ _ _).symm
  by_contra hlarge
  have hmore : (2 : ℚ) ^ (55 + x.biasedScale) < value * 2 ^ (places + 2) :=
    calc (2 : ℚ) ^ (55 + x.biasedScale)
        ≤ 2 ^ (3 * cut + (places + 2)) :=
          pow_le_pow_right₀ (by norm_num) (by omega)
      _ = 2 ^ (3 * cut) * 2 ^ (places + 2) := pow_add _ _ _
      _ < 10 ^ cut * 2 ^ (places + 2) := by
          gcongr
          exact two_pow_lt_ten_pow le_rfl (by omega)
      _ ≤ value * 2 ^ (places + 2) := by
          gcongr
          exact not_lt.mp hlarge
  exact absurd hbound (not_le.mpr hmore)

/-- A number in the interval of a positive one is not smaller than a last
place. -/
theorem inv_pow_lt_of_admits {cut : Nat} (hcut : cut = 400)
    (hmagnitude : x.magnitude ≠ 0) (hadmits : x.interval.Admits value) :
    (10 ^ cut)⁻¹ < value := by
  obtain ⟨places, hplaces⟩ : ∃ places, places = 1074 := ⟨_, rfl⟩
  have hlow := hadmits.low
  have hpositive := significand_ne_zero hmagnitude
  rw [unit_interval hplaces, low_interval] at hlow
  have hsize : 2 ≤ (4 * x.significand - x.belowOf) * 2 ^ x.biasedScale := by
    have hbelow : x.belowOf ≤ 2 := by
      unfold belowOf
      split <;> omega
    calc 2 ≤ (4 * x.significand - x.belowOf) * 1 := by omega
      _ ≤ (4 * x.significand - x.belowOf) * 2 ^ x.biasedScale := by
        gcongr
        exact Nat.one_le_two_pow
  have hbound : 2 ≤ value * 2 ^ (places + 2) :=
    calc (2 : ℚ) ≤
      (((4 * x.significand - x.belowOf) * 2 ^ x.biasedScale : ℕ) : ℚ) := by
          exact_mod_cast hsize
      _ ≤ value * ((4 * 2 ^ places : ℕ) : ℚ) := hlow
      _ = value * 2 ^ (places + 2) := by
          rw [← four_mul_two_pow]
          push_cast
          rfl
  by_contra hsmall
  have hten : (0 : ℚ) < 10 ^ cut := by positivity
  have hless : value * 2 ^ (places + 2) < 1 :=
    calc value * 2 ^ (places + 2)
        ≤ (10 ^ cut)⁻¹ * 2 ^ (places + 2) := by
          gcongr
          exact not_lt.mp hsmall
      _ < (10 ^ cut)⁻¹ * 10 ^ cut := by
          gcongr
          exact two_pow_lt_ten_pow (by omega) (by omega)
      _ = 1 := inv_mul_cancel₀ hten.ne'
  linarith

/-- A number of digits between powers of ten, by its bits in fours. -/
theorem between_pow_log2 {digits log : Nat} (hdigits : digits ≠ 0)
    (hlog : Nat.log2 digits / 4 = log) :
    (10 : ℚ) ^ log ≤ digits ∧ (digits : ℚ) < 10 ^ (2 * log + 2) := by
  have hlow : 2 ^ Nat.log2 digits ≤ digits := Nat.log2_self_le hdigits
  have hhigh : digits < 2 ^ (Nat.log2 digits + 1) := Nat.lt_log2_self
  have hsplit : 4 * log ≤ Nat.log2 digits := by omega
  have hrest : Nat.log2 digits + 1 ≤ 4 * (log + 1) := by omega
  constructor
  · calc (10 : ℚ) ^ log ≤ 16 ^ log := by
          gcongr
          norm_num
      _ = 2 ^ (4 * log) := by
          rw [pow_mul]
          norm_num
      _ ≤ 2 ^ Nat.log2 digits := by
          gcongr
          norm_num
      _ ≤ digits := by exact_mod_cast hlow
  · calc (digits : ℚ) < 2 ^ (Nat.log2 digits + 1) := by exact_mod_cast hhigh
      _ ≤ 2 ^ (4 * (log + 1)) := by
          gcongr
          norm_num
      _ = 16 ^ (log + 1) := by
          rw [pow_mul]
          norm_num
      _ ≤ 100 ^ (log + 1) := by
          gcongr
          norm_num
      _ = 10 ^ (2 * (log + 1)) := by
          rw [pow_mul]
          norm_num

theorem cast_natPow (n : Nat) : ((Nat.pow 10 n : ℕ) : ℚ) = 10 ^ n := by
  rw [Nat.pow_eq]
  push_cast
  rfl

/-- A decimal in the interval of a positive finite number is read as that
number. -/
theorem ofDecimal_of_admits {digits : Nat} {scale : Int} (negative : Bool)
    (hfinite : x.isFinite = true) (hmagnitude : x.magnitude ≠ 0)
    (hadmits : x.interval.Admits (digits * 10 ^ scale)) :
    ofDecimal negative digits scale = ofMagnitude negative x.magnitude := by
  obtain ⟨cut, hcut⟩ : ∃ cut, cut = 400 := ⟨_, rfl⟩
  have hless := lt_pow_of_admits hcut hfinite hadmits
  have hmore := inv_pow_lt_of_admits hcut hmagnitude hadmits
  have hten : (0 : ℚ) < 10 ^ cut := by positivity
  have hdigits : digits ≠ 0 := by
    rintro rfl
    rw [Nat.cast_zero, zero_mul] at hmore
    have hinverse : (0 : ℚ) < (10 ^ cut)⁻¹ := by positivity
    linarith
  obtain ⟨log, hlog⟩ : ∃ log, Nat.log2 digits / 4 = log := ⟨_, rfl⟩
  obtain ⟨hfloor, hceiling⟩ := between_pow_log2 hdigits hlog
  have hscale : (0 : ℚ) < 10 ^ scale := by positivity
  have hnotLarge : (log : Int) + scale < cut := by
    have hpow : (10 : ℚ) ^ ((log : Int) + scale) < 10 ^ (cut : Int) := by
      rw [zpow_add₀ (by norm_num), zpow_natCast, zpow_natCast]
      exact lt_of_le_of_lt (by gcongr) hless
    exact (zpow_lt_zpow_iff_right₀ (by norm_num)).mp hpow
  have hnotSmall : -(cut : Int) < 2 * log + 2 + scale := by
    have hpow :
        (10 : ℚ) ^ (-(cut : Int)) <
          10 ^ (((2 * log + 2 : ℕ) : Int) + scale) := by
      rw [zpow_add₀ (by norm_num), zpow_natCast, zpow_neg, zpow_natCast]
      exact lt_trans hmore (by gcongr)
    have hlt := (zpow_lt_zpow_iff_right₀ (by norm_num)).mp hpow
    push_cast at hlt
    exact hlt
  unfold ofDecimal
  rw [if_neg hdigits]
  dsimp only
  rw [if_neg (by omega), if_neg (by omega)]
  unfold ofRatio
  by_cases hsign : scale < 0
  · have hden : Nat.pow 10 scale.natAbs ≠ 0 := by simp
    have hvalue :
        (digits : ℚ) / (Nat.pow 10 scale.natAbs : ℕ) =
          digits * 10 ^ scale := by
      obtain ⟨n, rfl⟩ : ∃ n : Nat, scale = -n := ⟨scale.natAbs, by omega⟩
      rw [cast_natPow, Int.natAbs_neg, Int.natAbs_natCast, zpow_neg,
        zpow_natCast, div_eq_mul_inv]
    rw [if_pos hsign,
      magnitudeOfRatio_of_admits hfinite hmagnitude hdigits hden]
    rwa [hvalue]
  · have hnum : digits * Nat.pow 10 scale.natAbs ≠ 0 := by simp [hdigits]
    have hvalue : ((digits * Nat.pow 10 scale.natAbs : ℕ) : ℚ) / (1 : ℕ) =
        digits * 10 ^ scale := by
      obtain ⟨n, rfl⟩ : ∃ n : Nat, scale = n := ⟨scale.natAbs, by omega⟩
      rw [Nat.cast_mul, cast_natPow, Int.natAbs_natCast, zpow_natCast,
        Nat.cast_one, div_one]
    rw [if_neg hsign,
      magnitudeOfRatio_of_admits hfinite hmagnitude hnum one_ne_zero]
    rwa [hvalue]

end Reparse.Binary64
