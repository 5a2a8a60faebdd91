import Reparse.Binary64.Basic
import Reparse.Json.Scan

/-!
# Numbers of JSON

A number without point and exponent is an integer when 64 bits hold it; any
other number is read through a significand of 64 bits, with the digits beyond
it dropped, and one rounding more for the power of ten.  The form of a number
and its value are two steps, because a number that is passed over may be out of
range.
-/

namespace Reparse.Json

open Text

/-! ## Values -/

/-- The greatest significand. -/
def maxSignificand : Nat := Nat.pow 2 64 - 1

/-- The greatest exponent that is read as a number. -/
def maxExponent : Nat := Nat.pow 2 31 - 1

def digitValue (c : Char) : Nat :=
  c.toNat - 48

/-- Digits appended to a significand while it has room, and the digits left
over. -/
def appendDigits : Nat → List Char → Nat × List Char
  | n, [] => (n, [])
  | n, c :: s =>
    let m := 10 * n + digitValue c
    if m ≤ maxSignificand then appendDigits m s else (n, c :: s)

/-- The greatest power of ten in the format. -/
def maxTenPower : Nat := 308

def tenPower (k : Nat) : Binary64 :=
  Binary64.ofDecimal false 1 k

/-- The number `x * 10 ^ e`, rounded at each step; `none` when it is out of
range. -/
def scaleByTen (x : Binary64) (e : Int) : Option Binary64 :=
  if _h : e.natAbs ≤ maxTenPower then
    if 0 ≤ e then
      let y := x.mul (tenPower e.natAbs)
      if y.isFinite then some y else none
    else some (x.div (tenPower e.natAbs))
  else if x.magnitude = 0 then some x
  else if 0 ≤ e then none
  else scaleByTen (x.div (tenPower maxTenPower)) (e + maxTenPower)
termination_by e.natAbs
decreasing_by
  simp only [maxTenPower] at *
  omega

/-- The parts of a number after its sign. -/
structure NumberParts where
  whole : List Char
  /-- The digits after the point; none when there is no point. -/
  fraction : List Char
  /-- The sign and the digits of the exponent. -/
  exponent : Option (Bool × List Char)

/-- The value of a number with a fraction, an exponent or too many digits for
an integer. -/
def NumberParts.float? (negative : Bool) (parts : NumberParts) : Option Json :=
  let signed (x : Binary64) : Json := .float (if negative then x.neg else x)
  let (n, dropped) := appendDigits 0 parts.whole
  let (n, left) := appendDigits n parts.fraction
  let places : Int :=
    dropped.length - (parts.fraction.length - left.length : Nat)
  let x := Binary64.ofRatio false n 1
  match parts.exponent with
  | none => (scaleByTen x places).map signed
  | some (down, digits) =>
    let e := (foldDigits? 10 0 digits).getD 0
    if maxExponent < e then
      if n ≠ 0 ∧ !down then none
      else some (signed (Binary64.ofMagnitude false 0))
    else (scaleByTen x (if down then places - e else places + e)).map signed

def NumberParts.value? (negative : Bool) (parts : NumberParts) : Option Json :=
  if parts.fraction.isEmpty && parts.exponent.isNone then
    let n := (foldDigits? 10 0 parts.whole).getD 0
    if !negative && n ≤ maxSignificand then some (.int n)
    else if negative && 0 < n && n ≤ Nat.pow 2 63 then some (.int (-(n : Int)))
    else parts.float? negative
  else parts.float? negative

/-- How many digits of an exponent stand behind the one with which it exceeds
the greatest; none when it does not. -/
def digitsBeyond : Nat → List Char → Nat
  | _, [] => 0
  | n, c :: s =>
    let m := 10 * n + digitValue c
    if maxExponent < m then s.length else digitsBeyond m s

/-- The fault of a number that is out of range, noticed in the exponent or in
front of `rest`. -/
def NumberParts.rangeFault (parts : NumberParts) (rest : List Char) : Fault :=
  let beyond := parts.exponent.elim 0 fun (_, digits) => digitsBeyond 0 digits
  ⟨.numberOutOfRange, byteCount rest + beyond⟩

/-! ## Reading -/

/-- Where a digit should stand: `atEnd` is the flaw of a text that ends
there. -/
def digitFault (atEnd : Flaw) (s : List Char) : Fault :=
  if s.isEmpty then .before [] atEnd else .inside s .badNumber

/-- Digits, at least one. -/
def readDigits (atEnd : Flaw) : Reader (List Char) := fun s =>
  match s with
  | [] => .error (digitFault atEnd [])
  | c :: r =>
    if isDigit c
      then .ok (c :: r.takeWhile isDigit, (Suffix.dropWhile isDigit r).after c)
    else .error (digitFault atEnd (c :: r))

/-- The digits before the point; none stands behind a zero. -/
def readWhole (atEnd : Flaw) : Reader (List Char) := fun s =>
  match s with
  | '0' :: c :: r =>
    if isDigit c then .error (.inside (c :: r) .badNumber)
    else .ok (['0'], Rest.tail _ _)
  | s => readDigits atEnd s

/-- The digits after the point, none without a point. -/
def readFraction (atEnd : Flaw) (s : List Char) :
    Except Fault (List Char × Suffix s) :=
  match s with
  | '.' :: r => do
    let (digits, rest) ← readDigits atEnd r
    return (digits, (rest.after _).weaken)
  | s => .ok ([], Suffix.self s)

/-- The sign and the digits of the exponent whose letter stands before `s`. -/
def readSigned (atEnd : Flaw) : Reader (Bool × List Char) := fun s =>
  match s with
  | '+' :: r =>
      Taken.after
        _ (Taken.map (fun digits => (false, digits)) (readDigits atEnd r))
  | '-' :: r =>
      Taken.after
        _ (Taken.map (fun digits => (true, digits)) (readDigits atEnd r))
  | s => Taken.map (fun digits => (false, digits)) (readDigits atEnd s)

/-- The exponent, if there is one. -/
def readExponent (atEnd : Flaw) (s : List Char) :
    Except Fault (Option (Bool × List Char) × Suffix s) :=
  match s with
  | [] => .ok (none, Suffix.self [])
  | c :: r =>
    if c = 'e' ∨ c = 'E' then do
      let (exponent, rest) ← readSigned atEnd r
      return (some exponent, (rest.after c).weaken)
    else .ok (none, Suffix.self (c :: r))

/-- The parts of the number in front of `s`, after its sign; `atEnd` is the
flaw of a text that ends before a digit. -/
def readParts (atEnd : Flaw) : Reader NumberParts := fun s => do
  let (whole, rest) ← readWhole atEnd s
  let (fraction, t) ← readFraction atEnd rest.val
  let (exponent, u) ← readExponent atEnd t.val
  return (⟨whole, fraction, exponent⟩, (rest.trans t).trans u)

def readNumber (negative : Bool) : Reader Json := fun s =>
  match readParts .endInValue s with
  | .error e => .error e
  | .ok (parts, rest) =>
    match parts.value? negative with
    | some value => .ok (value, rest)
    | none => .error (parts.rangeFault rest.val)

end Reparse.Json
