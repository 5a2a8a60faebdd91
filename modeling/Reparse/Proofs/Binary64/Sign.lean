import Reparse.Binary64.Basic
import Mathlib.Tactic

/-!
# Signs and magnitudes

A number is its sign and its magnitude.
-/

namespace Reparse.Binary64

theorem magnitude_lt (x : Binary64) : x.magnitude < 2 ^ 63 :=
  Nat.mod_lt _ (by decide)

theorem toNat_bits_ofMagnitude {negative : Bool} {m : Nat} (hm : m < 2 ^ 63) :
    (ofMagnitude negative m).bits.toNat = if negative then 2 ^ 63 + m
      else m := by
  have hbits : (if negative then Nat.pow 2 63 + m else m) < 2 ^ 64 := by
    simp only [Nat.pow_eq]
    split <;> omega
  unfold ofMagnitude
  rw [UInt64.toNat_ofNat_of_lt' hbits]
  rfl

theorem isNegative_ofMagnitude {negative : Bool} {m : Nat} (hm : m < 2 ^ 63) :
    (ofMagnitude negative m).isNegative = negative := by
  unfold isNegative
  rw [toNat_bits_ofMagnitude hm]
  cases negative
  · simp only [Bool.false_eq_true, if_false, Nat.pow_eq,
      decide_eq_false_iff_not]
    omega
  · simp only [if_true, Nat.pow_eq, decide_eq_true_eq]
    omega

theorem magnitude_ofMagnitude {negative : Bool} {m : Nat} (hm : m < 2 ^ 63) :
    (ofMagnitude negative m).magnitude = m := by
  unfold magnitude
  rw [toNat_bits_ofMagnitude hm]
  cases negative
  · exact Nat.mod_eq_of_lt hm
  · rw [if_pos rfl]
    exact (Nat.add_mod_left _ _).trans (Nat.mod_eq_of_lt hm)

/-- A number is put together from its sign and its magnitude. -/
theorem ofMagnitude_self (x : Binary64) :
    ofMagnitude x.isNegative x.magnitude = x := by
  have hbits : x.bits.toNat < 2 ^ 64 := x.bits.toNat_lt
  have hsame :
      (ofMagnitude x.isNegative x.magnitude).bits.toNat = x.bits.toNat := by
    rw [toNat_bits_ofMagnitude x.magnitude_lt]
    unfold isNegative magnitude
    by_cases hsign : 2 ^ 63 ≤ x.bits.toNat
    · simp only [Nat.pow_eq, hsign, decide_true, if_true]
      omega
    · simp only [Nat.pow_eq, hsign, decide_false, Bool.false_eq_true, if_false]
      omega
  cases x with
  | mk bits => exact congrArg Binary64.mk (UInt64.toNat_inj.mp hsame)

@[simp] theorem isNegative_neg (x : Binary64) :
    x.neg.isNegative = !x.isNegative :=
  isNegative_ofMagnitude x.magnitude_lt

@[simp] theorem magnitude_neg (x : Binary64) : x.neg.magnitude = x.magnitude :=
  magnitude_ofMagnitude x.magnitude_lt

@[simp] theorem isFinite_neg (x : Binary64) : x.neg.isFinite = x.isFinite := by
  simp [isFinite]

@[simp] theorem neg_neg (x : Binary64) : x.neg.neg = x := by
  have houter : x.neg.neg = ofMagnitude (!x.neg.isNegative) x.neg.magnitude :=
    rfl
  rw [houter, isNegative_neg, magnitude_neg, Bool.not_not, ofMagnitude_self]

end Reparse.Binary64
