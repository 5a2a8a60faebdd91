/-!
# Binary64 numbers

The numbers of the IEEE 754 interchange format binary64, held as their 64 bits.
Two numbers are equal when their bits are, so a NaN equals itself and the two
zeros differ.  A finite number is `significand * 2 ^ exponent`, up to its sign.

`ofRatio` rounds a quotient of natural numbers to the nearest magnitude, a tie
going to the even significand.  Every conversion into the format goes through
it.
-/

namespace Reparse

structure Binary64 where
  bits : UInt64
  deriving DecidableEq

namespace Binary64

def isNegative (x : Binary64) : Bool :=
  Nat.pow 2 63 ≤ x.bits.toNat

/-- The bits below the sign bit. -/
def magnitude (x : Binary64) : Nat :=
  x.bits.toNat % Nat.pow 2 63

/-- The magnitude of the infinities; those above it are NaN. -/
def infinityMagnitude : Nat := 0x7FF * Nat.pow 2 52

def isFinite (x : Binary64) : Bool :=
  x.magnitude < infinityMagnitude

def isNaN (x : Binary64) : Bool :=
  infinityMagnitude < x.magnitude

def ofMagnitude (negative : Bool) (magnitude : Nat) : Binary64 :=
  ⟨UInt64.ofNat (if negative then Nat.pow 2 63 + magnitude else magnitude)⟩

def infinity (negative : Bool) : Binary64 :=
  ofMagnitude negative infinityMagnitude

def nan (negative : Bool) : Binary64 :=
  ofMagnitude negative (infinityMagnitude + Nat.pow 2 51)

def neg (x : Binary64) : Binary64 :=
  ofMagnitude (!x.isNegative) x.magnitude

instance : Neg Binary64 := ⟨neg⟩

/-- The significand of a finite number, an integer below `2 ^ 53`. -/
def significand (x : Binary64) : Nat :=
  if x.magnitude < Nat.pow 2 52 then x.magnitude
  else Nat.pow 2 52 + x.magnitude % Nat.pow 2 52

/-- The power of two that scales the significand, plus 1074. -/
def biasedScale (x : Binary64) : Nat :=
  x.magnitude / Nat.pow 2 52 - 1

/-! ## Rounding -/

/-- The quotient rounded to the nearest integer, a tie to the even one. -/
def roundQuotient (num den : Nat) : Nat :=
  let q := num / den
  let r := num % den
  if den < 2 * r ∨ (2 * r = den ∧ q % 2 = 1) then q + 1 else q

/-- The magnitude nearest to `num / den`.  The scale `s - 1074` is the greatest
that leaves at least 53 bits before the point, and is never below `-1074`; a
significand rounded up to `2 ^ 53` carries into the exponent field. -/
def magnitudeOfRatio (num den : Nat) : Nat :=
  if num = 0 ∨ den = 0 then 0
  else
    let low := Nat.log2 num + 1074 - 52 - Nat.log2 den
    let scaled := num * Nat.pow 2 1074
    let s :=
      if scaled < Nat.pow 2 52 * (den * Nat.pow 2 low) then low - 1 else low
    let m := roundQuotient scaled (den * Nat.pow 2 s)
    min (s * Nat.pow 2 52 + m) infinityMagnitude

def ofRatio (negative : Bool) (num den : Nat) : Binary64 :=
  ofMagnitude negative (magnitudeOfRatio num den)

/-- The number nearest to `digits * 10 ^ scale`.  A value that is certainly
beyond the range, judged by its number of digits, is settled before any power
is computed. -/
def ofDecimal (negative : Bool) (digits : Nat) (scale : Int) : Binary64 :=
  if digits = 0 then ofMagnitude negative 0
  else
    let places : Int := Nat.log2 digits / 4 + scale
    if 400 < places then infinity negative
    else if places + Nat.log2 digits / 4 + 2 < -400 then ofMagnitude negative 0
    else if scale < 0 then ofRatio negative digits (Nat.pow 10 scale.natAbs)
    else ofRatio negative (digits * Nat.pow 10 scale.natAbs) 1

/-! ## Products and quotients

Both are rounded from the exact rational number. -/

/-- The magnitude of a finite number as a multiple of `2 ^ -1074`. -/
def units (x : Binary64) : Nat :=
  x.significand * Nat.pow 2 x.biasedScale

def mul (x y : Binary64) : Binary64 :=
  ofRatio false (x.units * y.units) (Nat.pow 2 2148)

def div (x y : Binary64) : Binary64 :=
  ofRatio false x.units y.units

end Binary64
end Reparse
