/-!
# The calendar

Dates of the Gregorian calendar, extended to all years, and their number in days from 1970-01-01.
-/

namespace SchemaQuery

structure Date where
  year : Int
  month : Nat
  day : Nat
  deriving DecidableEq

namespace Date

def isLeap (year : Int) : Bool := year % 4 = 0 && (year % 100 ≠ 0 || year % 400 = 0)

def monthLengths (year : Int) : List Nat :=
  [31, if isLeap year then 29 else 28, 31, 30, 31, 30, 31, 31, 30, 31, 30, 31]

/-- The days from the first of January of year 1 to that of a year. -/
def daysBeforeYear (year : Int) : Int :=
  let past := year - 1
  365 * past + past / 4 - past / 100 + past / 400

/-- The days from year 1 to 1970. -/
def epoch : Int := 719162

/-- Years are those that the calendar of the stores can hold. -/
def ofParts? (year : Int) (month day : Nat) : Option Date :=
  if -262143 ≤ year ∧ year ≤ 262142 ∧ 1 ≤ month ∧ 1 ≤ day ∧
      day ≤ ((monthLengths year)[month - 1]?).getD 0 then
    some ⟨year, month, day⟩
  else none

/-- The days of a year before a month. -/
def daysBeforeMonth (year : Int) (month : Nat) : Nat :=
  ((monthLengths year).take (month - 1)).foldl Nat.add 0

def toDays (date : Date) : Int :=
  daysBeforeYear date.year + daysBeforeMonth date.year date.month + (date.day - 1 : Nat) - epoch

/-- The year of a day counted from year 1: an estimate by the mean length of a year, moved by one
where it misses. -/
def yearAt (days : Int) : Int :=
  let estimate := days * 400 / 146097 + 1
  if days < daysBeforeYear estimate then estimate - 1
  else if daysBeforeYear (estimate + 1) ≤ days then estimate + 1
  else estimate

/-- The month of a day of the year, and the day in it, both from zero. -/
def monthAt : List Nat → Nat → Nat × Nat
  | [], day => (0, day)
  | length :: rest, day =>
      if day < length then (0, day)
      else
        let (month, day) := monthAt rest (day - length)
        (month + 1, day)

def ofDays (days : Int) : Date :=
  let year := yearAt (days + epoch)
  let (month, day) := monthAt (monthLengths year) (days + epoch - daysBeforeYear year).toNat
  ⟨year, month + 1, day + 1⟩

end Date

end SchemaQuery
