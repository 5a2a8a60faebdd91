import Reparse.Binary64.Notation
import Reparse.Text.Blank
import Reparse.Toml.Basic

/-!
# Scalars of TOML

The values of integers, floats and truth values, and which texts are dates and
times.  An integer must be one of 64 bits, and a float must not be too great
for the format.
-/

namespace Reparse.Toml

open Text

/-! ## Numbers -/

/-- Digits in groups between underscores. -/
def isGrouped (p : Char → Bool) (s : List Char) : Bool :=
  (splitAt '_' s).all fun group => !group.isEmpty && group.all p

def dropUnderscores (s : List Char) : List Char :=
  s.filter (· != '_')

def dropSign : List Char → List Char
  | '+' :: s => s
  | '-' :: s => s
  | s => s

/-- Grouped decimal digits without a needless zero in front. -/
def isWhole (s : List Char) : Bool :=
  isGrouped isDigit s && (s.length == 1 || s.head? != some '0')

/-- A number in a base that its first letters name, without sign. -/
def based? (base : Nat) (s : List Char) : Option Int :=
  if isGrouped (fun c => (digitValue? base c).isSome) s then
    (readDigits? base (dropUnderscores s)).map fun n => (n : Int)
  else none

def integer? (s : List Char) : Option Int :=
  let value :=
    match s with
    | '0' :: 'x' :: s => based? 16 s
    | '0' :: 'o' :: s => based? 8 s
    | '0' :: 'b' :: s => based? 2 s
    | s => if isWhole (dropSign s) then readInt? (dropUnderscores s) else none
  value.filter inInt64

/-- The part of a number that is written with digits and underscores. -/
def isDigitOrUnderscore (c : Char) : Bool :=
  isDigit c || c == '_'

def isExponent : List Char → Bool
  | c :: s => (c == 'e' || c == 'E') && isGrouped isDigit (dropSign s)
  | [] => false

/-- What follows the whole part of a float. -/
def isFraction : List Char → Bool
  | '.' :: s =>
    let exponent := s.dropWhile isDigitOrUnderscore
    isGrouped isDigit (s.takeWhile isDigitOrUnderscore) &&
      (exponent.isEmpty || isExponent exponent)
  | s => isExponent s

def isSpecial (s : List Char) : Bool :=
  s == ['i', 'n', 'f'] || s == ['n', 'a', 'n']

def float? (s : List Char) : Option Binary64 :=
  let body := dropSign s
  if isSpecial body then Binary64.read? s
  else if isWhole (body.takeWhile isDigitOrUnderscore) &&
      isFraction (body.dropWhile isDigitOrUnderscore) then
    (Binary64.read? (dropUnderscores s)).filter (· != Binary64.infinity false)
  else none

/-! ## Dates and times -/

def twoDigits? (a b : Char) : Option Nat :=
  if isDigit a && isDigit b then readDigits? 10 [a, b] else none

def isLeap (year : Nat) : Bool :=
  year % 4 == 0 && (year % 100 != 0 || year % 400 == 0)

def daysIn (year month : Nat) : Nat :=
  if month = 2 then (if isLeap year then 29 else 28)
  else if month = 4 ∨ month = 6 ∨ month = 9 ∨ month = 11 then 30
  else 31

def isDate : List Char → Bool
  | [y, y', y'', y''', '-', m, m', '-', d, d'] =>
    match twoDigits? y y', twoDigits? y'' y''', twoDigits? m m',
      twoDigits? d d' with
    | some century, some year, some month, some day =>
      1 ≤ month && month ≤ 12 && 1 ≤ day &&
        day ≤ daysIn (century * 100 + year) month
    | _, _, _, _ => false
  | _ => false

def isBelow (bound : Nat) (a b : Char) : Bool :=
  (twoDigits? a b).any (· < bound)

/-- The distance of a time zone, or nothing. -/
def isOffset : List Char → Bool
  | [] => true
  | [c] => c == 'Z' || c == 'z'
  | [sign, h, h', ':', m, m'] =>
    (sign == '+' || sign == '-') && isBelow 24 h h' && isBelow 60 m m'
  | _ => false

/-- What follows the seconds of a time: a fraction of them, if there is one. -/
def afterFraction? : List Char → Option (List Char)
  | '.' :: s =>
      if (s.takeWhile isDigit).isEmpty then none
      else some (s.dropWhile isDigit)
  | s => some s

def afterTime? : List Char → Option (List Char)
  | h :: h' :: ':' :: m :: m' :: ':' :: s :: s' :: rest =>
    if isBelow 24 h h' && isBelow 60 m m' && isBelow 61 s s'
      then afterFraction? rest else none
  | _ => none

/-- A time with the distance of its zone, or without. -/
def isZonedTime (s : List Char) : Bool :=
  (afterTime? s).any isOffset

/-- A date, a time, or both with a letter between them. -/
def isDateTime (s : List Char) : Bool :=
  let time := s.drop 10
  isDate s || afterTime? s == some [] ||
    (isDate (s.take 10) &&
      (time.head? == some 'T' || time.head? == some 't') &&
      isZonedTime time.tail)

/-! ## Values -/

def scalar? (s : List Char) : Option Toml :=
  if s = "true".toList then some (.bool true)
  else if s = "false".toList then some (.bool false)
  else ((integer? s).map .int).or ((float? s).map .float)

end Reparse.Toml
