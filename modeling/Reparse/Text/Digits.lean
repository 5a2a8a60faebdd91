/-!
# Digits

Hexadecimal and decimal digits of natural numbers, written in lower case, and
the readers for them.
-/

namespace Reparse.Text

def isDigit (c : Char) : Bool :=
  '0' ≤ c && c ≤ '9'

def isLetter (c : Char) : Bool :=
  ('a' ≤ c && c ≤ 'z') || ('A' ≤ c && c ≤ 'Z')

/-- The value of a hexadecimal digit, in either case. -/
def hexValue? (c : Char) : Option Nat :=
  if '0' ≤ c && c ≤ '9' then some (c.toNat - 48)
  else if 'a' ≤ c && c ≤ 'f' then some (c.toNat - 87)
  else if 'A' ≤ c && c ≤ 'F' then some (c.toNat - 55)
  else none

/-- The value of a digit in `base` (at most 16). -/
def digitValue? (base : Nat) (c : Char) : Option Nat :=
  (hexValue? c).filter (· < base)

/-- The number that `digits` denote in `base`, continued from `value`. -/
def foldDigits? (base : Nat) : Nat → List Char → Option Nat
  | value, [] => some value
  | value, c :: s =>
    match digitValue? base c with
    | some d => foldDigits? base (value * base + d) s
    | none => none

/-- A number with at least one digit and no sign. -/
def readDigits? (base : Nat) (s : List Char) : Option Nat :=
  if s.isEmpty then none else foldDigits? base 0 s

/-- A number that one plus sign may precede. -/
def readUnsigned? (base : Nat) : List Char → Option Nat
  | '+' :: s => readDigits? base s
  | s => readDigits? base s

/-- A decimal number that one sign may precede. -/
def readInt? : List Char → Option Int
  | '-' :: s => (readDigits? 10 s).map fun n => -(n : Int)
  | s => (readUnsigned? 10 s).map fun n => (n : Int)

/-- The least and the greatest integer of 64 bits. -/
def inInt64 (i : Int) : Bool :=
  -(Nat.pow 2 63 : Nat) ≤ i && i < (Nat.pow 2 63 : Nat)

/-- A decimal number in the range of the 64-bit integers. -/
def readInt64? (s : List Char) : Option Int64 :=
  (readInt? s).bind fun i => if inInt64 i then some (Int64.ofInt i) else none

/-- The character whose code point a hexadecimal number gives. -/
def readCodePoint? (s : List Char) : Option Char :=
  (readUnsigned? 16 s).bind fun n =>
    if n.isValidChar then some (Char.ofNat n) else none

/-- The digit of value `d`, below 16. -/
def hexDigit (d : Nat) : Char :=
  if d < 10 then Char.ofNat (48 + d) else Char.ofNat (87 + d)

/-- The digits of `n` in `base`, most significant first; `0` for zero. -/
def digits (base n : Nat) : List Char :=
  if _h : n < base ∨ base < 2 then [hexDigit n]
  else digits base (n / base) ++ [hexDigit (n % base)]
termination_by n
decreasing_by exact Nat.div_lt_self (by omega) (by omega)

def decimal (n : Nat) : List Char :=
  digits 10 n

def hex (n : Nat) : List Char :=
  digits 16 n

def decimalInt (i : Int) : List Char :=
  if i < 0 then '-' :: decimal i.natAbs else decimal i.natAbs

def hexByte (b : UInt8) : List Char :=
  [hexDigit (b.toNat / 16), hexDigit (b.toNat % 16)]

def hexBytes (bytes : List UInt8) : List Char :=
  bytes.flatMap hexByte

/-- Bytes from pairs of digits.  A pair is read as a number of at most two
places, so a plus sign may stand in the first place of a pair. -/
def readHexBytes? : List Char → Option (List UInt8)
  | [] => some []
  | [_] => none
  | a :: b :: s =>
    match readUnsigned? 16 [a, b], readHexBytes? s with
    | some n, some bytes => some (UInt8.ofNat n :: bytes)
    | _, _ => none

end Reparse.Text
