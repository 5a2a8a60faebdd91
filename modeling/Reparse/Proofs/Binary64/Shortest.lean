import Reparse.Proofs.Binary64.Decimals
import Reparse.Proofs.Text.Digits

/-!
# The shortest decimal lies in the interval

A neighbour on the grid is only taken when it lies in the interval.  The search
begins above the number and ends eighteen places further down, where a step of
the grid is less than half a last place, so it does find one.
-/

namespace Reparse.Binary64

open Text

namespace Interval

variable {i : Interval} {scale : Int} {tie : Tie} {d : Nat}

/-- On a grid all quantities are multiplied by one factor. -/
theorem onGrid_eq (i : Interval) (scale : Int) :
    ∃ factor : ℚ, 0 < factor ∧ ((i.onGrid scale).1.low : ℚ) = i.low * factor ∧
      ((i.onGrid scale).1.value : ℚ) = i.value * factor ∧
      ((i.onGrid scale).1.high : ℚ) = i.high * factor ∧
      (i.onGrid scale).1.closed = i.closed ∧
      ((i.onGrid scale).2 : ℚ) = 10 ^ scale * i.unit * factor := by
  unfold onGrid
  by_cases hsign : scale < 0
  · obtain ⟨n, rfl⟩ : ∃ n : Nat, scale = -n := ⟨scale.natAbs, by omega⟩
    refine ⟨10 ^ n, by positivity, ?_⟩
    have hten : (10 : ℚ) ^ n ≠ 0 := by positivity
    rw [if_pos hsign, Int.natAbs_neg, Int.natAbs_natCast, zpow_neg,
      zpow_natCast]
    simp only [Nat.cast_mul, cast_natPow, true_and]
    field_simp
  · obtain ⟨n, rfl⟩ : ∃ n : Nat, scale = n := ⟨scale.natAbs, by omega⟩
    refine ⟨1, one_pos, ?_⟩
    rw [if_neg hsign, Int.natAbs_natCast, zpow_natCast]
    simp only [Nat.cast_mul, cast_natPow, mul_one, true_and]
    ring

theorem contains_iff {point : Nat} :
    i.contains point = true ↔
      i.low ≤ point ∧ point ≤ i.high ∧
        (point = i.low ∨ point = i.high → i.closed = true) := by
  unfold contains
  by_cases hclosed : i.closed = true
  · simp [hclosed]
  · rw [if_neg hclosed, Bool.and_eq_true, decide_eq_true_eq, decide_eq_true_eq]
    constructor
    · rintro ⟨hlow, hhigh⟩
      exact ⟨hlow.le, hhigh.le, fun hend => absurd hend (by omega)⟩
    · rintro ⟨hlow, hhigh, hends⟩
      have hinside : ¬ (point = i.low ∨ point = i.high) :=
        fun hend => hclosed (hends hend)
      omega

/-- A point of a grid that lies in the interval there is a decimal in the
interval. -/
theorem admits_of_contains
    (hcontains : (i.onGrid scale).1.contains (d * (i.onGrid scale).2) = true) :
    i.Admits (d * 10 ^ scale) := by
  obtain ⟨factor, hfactor, hlow, -, hhigh, hclosed, hstep⟩ := i.onGrid_eq scale
  obtain ⟨hle, hge, hends⟩ := contains_iff.mp hcontains
  have hpoint :
      ((d * (i.onGrid scale).2 : ℕ) : ℚ) =
        d * 10 ^ scale * i.unit * factor := by
    rw [Nat.cast_mul, hstep]
    ring
  have hle : i.low * factor ≤ d * 10 ^ scale * i.unit * factor := by
    rw [← hlow, ← hpoint]
    exact_mod_cast hle
  have hge : d * 10 ^ scale * i.unit * factor ≤ i.high * factor := by
    rw [← hhigh, ← hpoint]
    exact_mod_cast hge
  refine ⟨le_of_mul_le_mul_right hle hfactor,
    le_of_mul_le_mul_right hge hfactor, fun hend => ?_⟩
  rw [← hclosed]
  refine hends ?_
  rcases hend with hend | hend
  · left
    have hcast :
        ((d * (i.onGrid scale).2 : ℕ) : ℚ) = ((i.onGrid scale).1.low : ℕ) := by
      rw [hpoint, hend, hlow]
    exact_mod_cast hcast
  · right
    have hcast :
        ((d * (i.onGrid scale).2 : ℕ) : ℚ) =
          ((i.onGrid scale).1.high : ℕ) := by
      rw [hpoint, hend, hhigh]
    exact_mod_cast hcast

theorem admits_of_gridPoint? (hpoint : i.gridPoint? tie scale = some d) :
    i.Admits (d * 10 ^ scale) := by
  refine admits_of_contains ?_
  unfold gridPoint? at hpoint
  generalize i.onGrid scale = grid at *
  obtain ⟨j, step⟩ := grid
  dsimp only at hpoint ⊢
  split at hpoint
  · next hboth =>
      rw [Bool.and_eq_true] at hboth
      split at hpoint
      · cases hpoint
        exact hboth.1
      · cases hpoint
        exact hboth.2
  · split at hpoint
    · next hdown =>
        cases hpoint
        exact hdown
    · split at hpoint
      · next hup =>
          cases hpoint
          exact hup
      · cases hpoint

/-- Where a step of the grid is less than the upper half of the interval, the
grid has a point. -/
theorem exists_gridPoint (tie : Tie) (hunit : 0 < i.unit) (hlow : 0 < i.low)
    (hvalue : i.low ≤ i.value)
    (hstep : (i.value : ℚ) + 10 ^ scale * i.unit < i.high) :
    ∃ d, i.gridPoint? tie scale = some (d + 1) := by
  obtain ⟨factor, hfactor, hlowEq, hvalueEq, hhighEq, -, hstepEq⟩ :=
    i.onGrid_eq scale
  have hunitQ : (0 : ℚ) < i.unit := by exact_mod_cast hunit
  have hpositive : 0 < (i.onGrid scale).2 := by
    have hcast : (0 : ℚ) < (i.onGrid scale).2 := by
      rw [hstepEq]
      positivity
    exact_mod_cast hcast
  have hbottom : 0 < (i.onGrid scale).1.low := by
    have hlowQ : (0 : ℚ) < i.low := by exact_mod_cast hlow
    have hcast : (0 : ℚ) < (i.onGrid scale).1.low := by
      rw [hlowEq]
      positivity
    exact_mod_cast hcast
  have horder : (i.onGrid scale).1.low ≤ (i.onGrid scale).1.value := by
    have hvalueQ : (i.low : ℚ) ≤ i.value := by exact_mod_cast hvalue
    have hcast : ((i.onGrid scale).1.low : ℚ) ≤ (i.onGrid scale).1.value := by
      rw [hlowEq, hvalueEq]
      gcongr
    exact_mod_cast hcast
  have hroom :
      (i.onGrid scale).1.value + (i.onGrid scale).2 <
        (i.onGrid scale).1.high := by
    have hcast : ((i.onGrid scale).1.value : ℚ) + (i.onGrid scale).2 <
        (i.onGrid scale).1.high := by
      rw [hvalueEq, hstepEq, hhighEq, ← add_mul]
      gcongr
    exact_mod_cast hcast
  -- From here on everything happens on the grid, where the next point up is
  -- known to be inside.
  unfold gridPoint?
  generalize i.onGrid scale = grid at *
  obtain ⟨j, step⟩ := grid
  dsimp only at *
  have hsplit := Nat.div_add_mod j.value step
  have hrest : j.value % step < step := Nat.mod_lt _ hpositive
  generalize j.value / step = q at *
  have hup : j.contains ((q + 1) * step) = true := by
    rw [contains_iff, Nat.add_mul, Nat.one_mul, Nat.mul_comm q]
    omega
  have hdown : j.contains (q * step) = true → q ≠ 0 := by
    rintro hcontains rfl
    have hle := (contains_iff.mp hcontains).1
    omega
  rw [hup]
  by_cases hboth : j.contains (q * step) = true
  · obtain ⟨p, rfl⟩ := Nat.exists_eq_succ_of_ne_zero (hdown hboth)
    simp only [hboth, Bool.and_self, if_true]
    split
    · exact ⟨p, rfl⟩
    · exact ⟨p + 1, rfl⟩
  · simp [hboth]

/-- The search finds a point on the last grid it tries or on one before. -/
theorem search_eq (tries : Nat)
    (hlast : ∃ d, i.gridPoint? tie (scale - tries) = some (d + 1)) :
    ∃ d found, i.search tie scale (tries + 1) = ⟨d + 1, found⟩ ∧
      i.gridPoint? tie found = some (d + 1) := by
  induction tries generalizing scale with
  | zero =>
      obtain ⟨d, hd⟩ := hlast
      rw [Nat.cast_zero, sub_zero] at hd
      exact ⟨d, scale, by simp only [search, hd], hd⟩
  | succ tries ih =>
      rw [search]
      split
      · next d hd => exact ⟨d, scale, rfl, hd⟩
      · refine ih ?_
        obtain ⟨d, hd⟩ := hlast
        refine ⟨d, ?_⟩
        rw [← hd]
        congr 1
        push_cast
        ring

/-- The scale above the number is the least one, or the one above it. -/
theorem pow_topScale_le (hunit : 0 < i.unit) (hvalue : 0 < i.value) :
    10 ^ (i.topScale - 1) * (i.unit : ℚ) ≤ i.value := by
  unfold topScale
  by_cases hlarge : i.unit ≤ i.value
  · have hquotient : i.value / i.unit ≠ 0 := (Nat.div_pos hlarge hunit).ne'
    have hlength := (length_decimal (i.value / i.unit)).2 hquotient
    have hmul : i.value / i.unit * i.unit ≤ i.value := Nat.div_mul_le_self _ _
    have hbound : 10 ^ i.placesBefore * i.unit ≤ 10 * i.value := by
      calc 10 ^ i.placesBefore * i.unit ≤
        10 * (i.value / i.unit) * i.unit := by
            gcongr
            exact hlength
        _ ≤ 10 * i.value := by
            rw [Nat.mul_assoc]
            gcongr
    have hcast : (10 : ℚ) ^ i.placesBefore * i.unit ≤ 10 * i.value := by
      exact_mod_cast hbound
    rw [if_pos hlarge, zpow_sub₀ (by norm_num), zpow_natCast, zpow_one]
    linarith
  · have hlength := (length_decimal (i.unit / i.value)).1
    have hbound :
        i.unit < 10 ^ (decimal (i.unit / i.value)).length * i.value :=
      (Nat.div_lt_iff_lt_mul hvalue).mp hlength
    have hcast :
        (i.unit : ℚ) < 10 ^ (decimal (i.unit / i.value)).length * i.value := by
      exact_mod_cast hbound
    generalize (decimal (i.unit / i.value)).length = n at *
    have hten : (0 : ℚ) < 10 ^ n := by positivity
    have hexponent : (1 : Int) - n - 1 = -n := by ring
    rw [if_neg hlarge, hexponent, zpow_neg, zpow_natCast, inv_mul_le_iff₀ hten]
    exact hcast.le

end Interval

/-- Removing zeros keeps the value. -/
theorem Decimal.strip_eq {d : Decimal} (hdigits : d.digits ≠ 0) :
    d.strip.digits ≠ 0 ∧ (d.strip.digits : ℚ) * 10 ^ d.strip.scale =
      d.digits * 10 ^ d.scale := by
  rw [strip]
  by_cases hzero : d.digits ≠ 0 ∧ d.digits % 10 = 0
  · rw [dif_pos hzero]
    have hdiv : d.digits = 10 * (d.digits / 10) := by omega
    obtain ⟨hne, hvalue⟩ :=
      strip_eq (d := ⟨d.digits / 10, d.scale + 1⟩) (by dsimp only; omega)
    refine ⟨hne, ?_⟩
    rw [hvalue]
    conv_rhs => rw [hdiv]
    rw [zpow_add₀ (by norm_num)]
    push_cast
    ring
  · rw [dif_neg hzero]
    exact ⟨hdigits, rfl⟩
termination_by d.digits
decreasing_by exact Nat.div_lt_self (by omega) (by omega)

theorem value_interval (x : Binary64) :
    x.interval.value = 4 * x.significand * 2 ^ x.biasedScale := rfl

theorem unit_pos (x : Binary64) : 0 < x.interval.unit := by
  obtain ⟨places, hplaces⟩ : ∃ places, places = 1074 := ⟨_, rfl⟩
  rw [unit_interval hplaces]
  positivity

/-- Eighteen places below the leading digit a step is less than half a last
place. -/
theorem value_add_step_lt {x : Binary64} (hmagnitude : x.magnitude ≠ 0) :
    (x.interval.value : ℚ) + 10 ^ (x.interval.topScale - (19 : Nat)) *
      x.interval.unit <
      x.interval.high := by
  have hpositive := significand_ne_zero hmagnitude
  have hsize : (x.significand : ℚ) < 2 ^ 53 := by
    exact_mod_cast x.significand_lt
  have hgrain : (0 : ℚ) < 2 ^ x.biasedScale := by positivity
  have htop :
      10 ^ (x.interval.topScale - 1) * (x.interval.unit : ℚ) ≤
        x.interval.value := by
    refine Interval.pow_topScale_le x.unit_pos ?_
    rw [value_interval]
    exact Nat.mul_pos (Nat.mul_pos (by decide) (Nat.pos_of_ne_zero hpositive))
      (Nat.two_pow_pos _)
  have hexponent :
      x.interval.topScale - (19 : Nat) = x.interval.topScale - 1 - 18 := by
    push_cast
    ring
  have hstep :
      10 ^ (x.interval.topScale - (19 : Nat)) * (x.interval.unit : ℚ) ≤
      x.interval.value / 10 ^ 18 := by
    rw [hexponent, zpow_sub₀ (by norm_num), div_mul_eq_mul_div]
    exact div_le_div_of_nonneg_right htop (by positivity)
  have hsmall : (x.interval.value : ℚ) / 10 ^ 18 < 2 * 2 ^ x.biasedScale := by
    have hfew : 4 * (x.significand : ℚ) < 2 * 10 ^ 18 := by
      linarith only [hsize]
    rw [value_interval, div_lt_iff₀ (by positivity)]
    calc ((4 * x.significand * 2 ^ x.biasedScale : ℕ) : ℚ)
        = 4 * x.significand * 2 ^ x.biasedScale := by
          push_cast
          rfl
      _ < 2 * 10 ^ 18 * 2 ^ x.biasedScale :=
        mul_lt_mul_of_pos_right hfew hgrain
      _ = 2 * 2 ^ x.biasedScale * 10 ^ 18 := by ring
  have hhigh :
      (x.interval.high : ℚ) = x.interval.value + 2 * 2 ^ x.biasedScale := by
    rw [high_interval, value_interval]
    push_cast
    ring
  rw [hhigh]
  generalize (x.interval.value : ℚ) = value at *
  generalize 10 ^ (x.interval.topScale - (19 : Nat)) * (x.interval.unit : ℚ) =
    step at *
  linarith

/-- The shortest decimal of a positive number lies in its interval. -/
theorem admits_shortest {x : Binary64} (tie : Tie)
    (hmagnitude : x.magnitude ≠ 0) :
    (x.shortest tie).digits ≠ 0 ∧
      x.interval.Admits
        ((x.shortest tie).digits * 10 ^ (x.shortest tie).scale) := by
  have hpositive := significand_ne_zero hmagnitude
  have hgrain : 0 < 2 ^ x.biasedScale := Nat.two_pow_pos _
  have hbelow : 0 < x.belowOf ∧ x.belowOf ≤ 2 := by
    unfold belowOf
    split <;> omega
  have hlow : 0 < x.interval.low := by
    rw [low_interval]
    exact Nat.mul_pos (by omega) hgrain
  have hvalue : x.interval.low ≤ x.interval.value := by
    rw [low_interval, value_interval]
    gcongr
    exact Nat.sub_le _ _
  obtain ⟨d, found, hsearch, hpoint⟩ := Interval.search_eq 19
    (Interval.exists_gridPoint tie x.unit_pos hlow hvalue
      (value_add_step_lt hmagnitude))
  unfold shortest
  dsimp only
  rw [hsearch]
  obtain ⟨hne, hstrip⟩ :=
    Decimal.strip_eq (d := ⟨d + 1, found⟩) (Nat.succ_ne_zero d)
  rw [hstrip]
  exact ⟨hne, Interval.admits_of_gridPoint? hpoint⟩

end Reparse.Binary64
