import Reparse.Binary64.Shortest

/-!
# Numbers in text

How a number is written and read.  The digits are the shortest ones that read
back; a `Layout` decides where positional notation ends and how an exponent is
written.  `read?` accepts an optional sign, digits with an optional point, an
optional exponent, and the words for the values that are not finite.
-/

namespace Reparse.Binary64

open Text

/-- The decisions of a written form.  A number whose leading digit stands for
`10 ^ k` is written positionally when `least ≤ k ≤ greatest`; otherwise with
the exponent `k`, after a plus sign if `plus` is set and `k` is not negative.
Of two shortest decimals equally near, `tie` takes one. -/
structure Layout where
  least : Int
  greatest : Int
  plus : Bool
  tie : Tie

/-- Zeros and digits around a point: at least one digit on each side. -/
def positional (digits : List Char) (k : Int) : List Char :=
  if k < 0 then
    '0' :: '.' :: (List.replicate (k.natAbs - 1) '0' ++ digits)
  else
    let before := k.natAbs + 1
    let padded := digits ++ List.replicate (before - digits.length) '0'
    let after := padded.drop before
    padded.take before ++ '.' :: (if after.isEmpty then ['0'] else after)

/-- One digit, the others after a point, and the exponent. -/
def scientific (layout : Layout) (digits : List Char) (k : Int) : List Char :=
  let fraction :=
    match digits.drop 1 with
    | [] => []
    | more => '.' :: more
  digits.take 1 ++ fraction ++
    'e' :: ((if layout.plus && 0 ≤ k then ['+'] else []) ++ decimalInt k)

def writeMagnitude (layout : Layout) (x : Binary64) : List Char :=
  if x.magnitude = 0 then ['0', '.', '0']
  else
    let d := x.shortest layout.tie
    let digits := decimal d.digits
    let k : Int := digits.length - 1 + d.scale
    if layout.least ≤ k ∧ k ≤ layout.greatest then positional digits k
    else scientific layout digits k

/-- A number in text; the values that are not finite are `inf`, `-inf` and
`NaN`. -/
def write (layout : Layout) (x : Binary64) : List Char :=
  if x.isNaN then ['N', 'a', 'N']
  else
    let body := if x.isFinite then writeMagnitude layout x else ['i', 'n', 'f']
    if x.isNegative then '-' :: body else body

/-! ## Reading -/

/-- A decimal number read from text. -/
structure Numeral where
  digits : Nat
  scale : Int

/-- Digits with an optional point; one digit at least. -/
def readMantissa? (s : List Char) : Option (Numeral × List Char) :=
  let whole := s.takeWhile isDigit
  let s := s.dropWhile isDigit
  let fraction :=
    match s with
    | '.' :: r => r.takeWhile isDigit
    | _ => []
  let rest :=
    match s with
    | '.' :: r => r.dropWhile isDigit
    | _ => s
  (readDigits? 10 (whole ++ fraction)).map fun n =>
    (⟨n, -(fraction.length : Int)⟩, rest)

/-- An exponent that takes up all that is left, or nothing. -/
def readExponent? : List Char → Option Int
  | [] => some 0
  | c :: s => if c = 'e' ∨ c = 'E' then readInt? s else none

/-- The words for values that are not finite, in any case. -/
def readWord? (negative : Bool) (s : List Char) : Option Binary64 :=
  let w := s.map Char.toLower
  if w = ['i', 'n', 'f'] ∨ w = ['i', 'n', 'f', 'i', 'n', 'i', 't', 'y']
    then some (infinity negative)
  else if w = ['n', 'a', 'n'] then some (nan negative)
  else none

def readUnsigned? (negative : Bool) (s : List Char) : Option Binary64 :=
  match readMantissa? s with
  | some (n, rest) =>
    (readExponent? rest).map fun e => ofDecimal negative n.digits (n.scale + e)
  | none => readWord? negative s

/-- The number nearest to the decimal that a text denotes. -/
def read? : List Char → Option Binary64
  | '-' :: s => readUnsigned? true s
  | '+' :: s => readUnsigned? false s
  | s => readUnsigned? false s

end Reparse.Binary64
