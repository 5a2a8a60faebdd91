import Reparse.Text.Blank
import Reparse.Text.Digits

/-!
# Moments as text

A moment is a number of seconds since the beginning of 1970 in universal time.
It is written as `2000-01-01T00:00:00Z`.  Days are counted in years that begin
in March, so that the day of a leap year comes last, and in cycles of four
hundred such years.
-/

namespace Reparse.CommandLine

open Text

structure Date where
  year : Nat
  month : Nat
  day : Nat
  deriving DecidableEq

/-- The days from the beginning of March in the year 0 to the beginning of
1970. -/
def daysToEpoch : Nat := 719468

def cycleDays : Nat := 146097

/-- The day that comes `days` days after the beginning of 1970. -/
def Date.ofDays (days : Nat) : Date :=
  let n := days + daysToEpoch
  let cycle := n / cycleDays
  let d := n % cycleDays
  let year := (d - d / 1460 + d / 36524 - d / 146096) / 365
  let d := d - (365 * year + year / 4 - year / 100)
  let m := (5 * d + 2) / 153
  let month := if m < 10 then m + 3 else m - 9
  let turned := if month ≤ 2 then 1 else 0
  ⟨400 * cycle + year + turned, month, d - (153 * m + 2) / 5 + 1⟩

/-- A number with at least this many digits. -/
def padded (width n : Nat) : String :=
  String.ofList (padStart width '0' (decimal n))

def Date.toString (d : Date) : String :=
  s!"{padded 4 d.year}-{padded 2 d.month}-{padded 2 d.day}"

def showMoment (seconds : Nat) : String :=
  let date := Date.ofDays (seconds / 86400)
  let s := seconds % 86400
  s!"{date.toString}T{padded 2 (s / 3600)}:{padded 2 (s / 60 % 60)}:{padded 2 (s % 60)}Z"

end Reparse.CommandLine
