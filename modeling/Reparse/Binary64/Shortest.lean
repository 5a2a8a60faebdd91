import Reparse.Binary64.Basic
import Reparse.Text.Digits

/-!
# The fewest digits that read back

The reals that round to a finite number form an interval around it, with its
ends exactly when the significand is even.  Among the decimals in that interval
`shortest` takes one with the fewest digits, and of those the one nearest to
the number.  Two can be equally near, as for `2 ^ -25`, which lies halfway
between two decimals of 17 digits; a `Tie` says which of them is meant.  A grid
`10 ^ k` has a point in the interval only if one of the two neighbours of the
number on the grid lies in it, so only the neighbours are tried.

All quantities are multiples of a quarter of the number's last place, written
over a common denominator, so that only natural numbers are compared.
-/

namespace Reparse.Binary64

/-- A decimal `digits * 10 ^ scale`. -/
structure Decimal where
  digits : Nat
  scale : Int
  deriving DecidableEq

/-- Which of two equally near decimals is taken: the one whose last digit is
even, or the larger. -/
inductive Tie where
  | toEven
  | up
  deriving DecidableEq

/-- Whether a number halfway between `digits` and `digits + 1` stays at
`digits`. -/
def Tie.staysAt (tie : Tie) (digits : Nat) : Bool :=
  match tie with
  | toEven => digits % 2 = 0
  | up => false

/-- A positive finite number as `value / unit`, with the ends of its rounding
interval over the same denominator. -/
structure Interval where
  low : Nat
  value : Nat
  high : Nat
  unit : Nat
  closed : Bool

/-- The rounding interval of a positive finite magnitude.  Below a power of two
the numbers lie twice as dense, so the lower end is nearer there. -/
def interval (x : Binary64) : Interval :=
  let m := x.significand
  let s := x.biasedScale
  let below := if m = Nat.pow 2 52 ∧ 0 < s then 1 else 2
  let p := Nat.pow 2 s
  ⟨(4 * m - below) * p, 4 * m * p, (4 * m + 2) * p, 4 * Nat.pow 2 1074,
    m % 2 = 0⟩

def Interval.contains (i : Interval) (point : Nat) : Bool :=
  if i.closed then i.low ≤ point && point ≤ i.high
  else i.low < point && point < i.high

/-- The interval with all quantities multiplied so that `10 ^ scale` becomes an
integer number of units; the grid step comes second. -/
def Interval.onGrid (i : Interval) (scale : Int) : Interval × Nat :=
  if scale < 0 then
    let p := Nat.pow 10 scale.natAbs
    (⟨i.low * p, i.value * p, i.high * p, i.unit, i.closed⟩, i.unit)
  else (i, i.unit * Nat.pow 10 scale.natAbs)

/-- The neighbour of the value on the grid `10 ^ scale` that lies in the
interval: the nearer of two, or the one that `tie` takes. -/
def Interval.gridPoint? (tie : Tie) (i : Interval) (scale : Int) :
    Option Nat :=
  let (j, step) := i.onGrid scale
  let d := j.value / step
  let down := j.contains (d * step)
  let up := j.contains ((d + 1) * step)
  if down && up then
    let r := 2 * (j.value - d * step)
    some (if r < step ∨ (r = step ∧ tie.staysAt d) then d else d + 1)
  else if down then some d
  else if up then some (d + 1)
  else none

/-- The first grid from `scale` downwards, among `tries`, with a point in the
interval. -/
def Interval.search (tie : Tie) (i : Interval) (scale : Int) : Nat → Decimal
  | 0 => ⟨0, 0⟩
  | tries + 1 =>
    match i.gridPoint? tie scale with
    | some (d + 1) => ⟨d + 1, scale⟩
    | _ => i.search tie (scale - 1) tries

/-- The decimal without the zeros that end its digits. -/
def Decimal.strip (d : Decimal) : Decimal :=
  if _h : d.digits ≠ 0 ∧ d.digits % 10 = 0
    then strip ⟨d.digits / 10, d.scale + 1⟩ else d
termination_by d.digits
decreasing_by exact Nat.div_lt_self (by omega) (by omega)

/-- The number of decimal places before the point of `value / unit`; at least
1. -/
def Interval.placesBefore (i : Interval) : Nat :=
  (Text.decimal (i.value / i.unit)).length

/-- A power of ten above `value / unit`. -/
def Interval.topScale (i : Interval) : Int :=
  if i.unit ≤ i.value then i.placesBefore
  else 1 - ((Text.decimal (i.unit / i.value)).length : Int)

/-- The shortest decimal that reads back as a positive finite magnitude.
Seventeen digits always suffice. -/
def shortest (tie : Tie) (x : Binary64) : Decimal :=
  let i := x.interval
  (i.search tie i.topScale 20).strip

end Reparse.Binary64
