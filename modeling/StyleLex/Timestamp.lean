/-
# Points in time

A timestamp counts seconds from the beginning of 1970, in UTC.  It is written as a date and a time
of day in the form of RFC 3339; a fraction of a second is written in as many groups of three
digits as it needs.

Dates are found by counting years from a first of March, so that the leap day is the last day of
its year: 400 years have 146097 days, a century 36524 and four years 1461, with a day more where
the leap day ends a longer cycle.
-/
import StyleLex.Decimal.Layout

namespace StyleLex

structure Timestamp where
  /-- Whole seconds, negative before 1970. -/
  seconds : Int
  /-- The rest, in billionths of a second. -/
  nanoseconds : Nat := 0
  deriving DecidableEq, Repr

namespace Timestamp

/-! ## 1. Dates -/

structure Date where
  year : Int
  month : Nat
  day : Nat
  deriving DecidableEq, Repr

/-- Days from the first of March of the year zero to the first of January 1970. -/
def daysToEpoch : Int := 719468

/-- The year, counted from March, within a cycle of 400 years, of a day of the cycle. -/
def yearOfCycle (day : Nat) : Nat := (day - day / 1460 + day / 36524 - day / 146096) / 365

/-- The date of a day counted from 1970. -/
def dateOfDay (day : Int) : Date :=
  let shifted := day + daysToEpoch
  let cycle := shifted.fdiv 146097
  let dayOfCycle := (shifted.fmod 146097).toNat
  let year := yearOfCycle dayOfCycle
  let dayOfYear := dayOfCycle - (365 * year + year / 4 - year / 100)
  let shiftedMonth := (5 * dayOfYear + 2) / 153
  let month := if shiftedMonth < 10 then shiftedMonth + 3 else shiftedMonth - 9
  { year := cycle * 400 + year + (if month ≤ 2 then 1 else 0)
    month := month
    day := dayOfYear - (153 * shiftedMonth + 2) / 5 + 1 }

/-! ## 2. Writing -/

/-- A number with at least `width` digits. -/
def padded (width n : Nat) : String :=
  let digits := Decimal.digitChars n
  String.ofList (Decimal.zeros (width - digits.length) ++ digits)

/-- Years of four digits stand alone; all others have a sign. -/
def yearText (year : Int) : String :=
  if 0 ≤ year ∧ year ≤ 9999 then padded 4 year.toNat
  else (if year < 0 then "-" else "+") ++ padded 4 year.natAbs

/-- The fraction of a second. -/
def fractionText (nanoseconds : Nat) : String :=
  if nanoseconds = 0 then ""
  else if nanoseconds % 1000000 = 0 then "." ++ padded 3 (nanoseconds / 1000000)
  else if nanoseconds % 1000 = 0 then "." ++ padded 6 (nanoseconds / 1000)
  else "." ++ padded 9 nanoseconds

/-- Date and time of day. -/
def render (stamp : Timestamp) : String :=
  let date := dateOfDay (stamp.seconds.fdiv 86400)
  let second := (stamp.seconds.fmod 86400).toNat
  yearText date.year ++ "-" ++ padded 2 date.month ++ "-" ++ padded 2 date.day ++ "T" ++
    padded 2 (second / 3600) ++ ":" ++ padded 2 (second / 60 % 60) ++ ":" ++
    padded 2 (second % 60) ++ fractionText stamp.nanoseconds ++ "+00:00"

end Timestamp

/-! ## 3. Spans of time -/

/-- A measured length of time. -/
structure Duration where
  nanoseconds : Nat := 0
  deriving DecidableEq, Repr

namespace Duration

def ofMicroseconds (n : Nat) : Duration := ⟨n * 1000⟩

def microseconds (duration : Duration) : Nat := duration.nanoseconds / 1000

/-- The seconds, as a number: whole ones and the rest. -/
def seconds (duration : Duration) : Float :=
  Float.ofNat (duration.nanoseconds / 1000000000) +
    Float.ofNat (duration.nanoseconds % 1000000000) / 1000000000.0

def milliseconds (duration : Duration) : Float := duration.seconds * 1000.0

end Duration
end StyleLex
