import SchemaQuery.Text.Blank
import SchemaQuery.Time.Calendar

/-!
# Instants

An instant is a second of UTC and nanoseconds in it. A leap second is the second before it with
more than `10 ^ 9` nanoseconds. Instants are read from RFC 3339 texts and from dates, and written to
the millisecond.
-/

namespace SchemaQuery

structure Instant where
  seconds : Int
  nanos : Nat
  deriving DecidableEq

namespace Instant

def compare (a b : Instant) : Ordering :=
  (Ord.compare a.seconds b.seconds).then (Ord.compare a.nanos b.nanos)

def secondsPerDay : Nat := 86400

/-- Midnight of a date. -/
def ofDate (date : Date) : Instant := ⟨date.toDays * secondsPerDay, 0⟩

def date (instant : Instant) : Date := Date.ofDays (instant.seconds / secondsPerDay)

/-- Milliseconds from 1970 on, within the years of the calendar. -/
def ofMillis? (millis : Int) : Option Instant :=
  let instant : Instant := ⟨millis / 1000, (millis % 1000).toNat * 1000000⟩
  let year := instant.date.year
  if -262143 ≤ year ∧ year ≤ 262142 then some instant else none

/-! ## Reading -/

def digit? (c : Char) : Option Nat :=
  if '0' ≤ c ∧ c ≤ '9' then some (c.toNat - '0'.toNat) else none

/-- The number in at most `limit` digits at the front, how many there are, and the rest. -/
def digits : Nat → Nat → List Char → Nat × Nat × List Char
  | 0, n, cs => (n, 0, cs)
  | _ + 1, n, [] => (n, 0, [])
  | limit + 1, n, c :: rest =>
      match digit? c with
      | some d =>
          let (n, count, rest) := digits limit (n * 10 + d) rest
          (n, count + 1, rest)
      | none => (n, 0, c :: rest)

/-- A number of `least` to `most` digits. -/
def number? (least most : Nat) (cs : List Char) : Option (Nat × List Char) :=
  let (n, count, rest) := digits most 0 cs
  if least ≤ count then some (n, rest) else none

def mark? (mark : Char) : List Char → Option (List Char)
  | c :: rest => if c = mark then some rest else none
  | [] => none

/-- Nanoseconds in any number of digits, of which nine count. -/
def fraction? : List Char → Option (Nat × List Char)
  | '.' :: rest =>
      let (n, count, rest) := digits 9 0 rest
      if count = 0 then none
      else some (n * Nat.pow 10 (9 - count), rest.dropWhile fun c => (digit? c).isSome)
  | rest => some (0, rest)

/-- The distance from UTC in seconds, which ends the text. -/
def offset? : List Char → Option Int
  | [] => none
  | c :: rest =>
      if c = 'Z' ∨ c = 'z' then (if rest.isEmpty then some 0 else none)
      else do
        let hours ← number? 2 2 rest
        let rest ← mark? ':' hours.2
        let minutes ← number? 2 2 rest
        let seconds : Int := hours.1 * 3600 + minutes.1 * 60
        if !minutes.2.isEmpty || 59 < minutes.1 || 23 < hours.1 then none
        else if c = '+' then some seconds
        else if c = '-' ∨ c = '\u2212' then some (-seconds)
        else none

/-- A text by RFC 3339, in which a space may stand for the `T`. -/
def ofRfc3339? (cs : List Char) : Option Instant := do
  let (year, rest) ← number? 4 4 cs
  let (month, rest) ← number? 2 2 (← mark? '-' rest)
  let (day, rest) ← number? 2 2 (← mark? '-' rest)
  let date ← Date.ofParts? year month day
  let rest ←
    match rest with
    | c :: rest => if c = 'T' ∨ c = 't' ∨ c = ' ' then some rest else none
    | [] => none
  let (hour, rest) ← number? 2 2 rest
  let (minute, rest) ← number? 2 2 (← mark? ':' rest)
  let (second, rest) ← number? 2 2 (← mark? ':' rest)
  let (nanos, rest) ← fraction? rest
  let offset ← offset? rest
  if 23 < hour || 59 < minute || 60 < second then none
  else
    let seconds := date.toDays * secondsPerDay + hour * 3600 + minute * 60 - offset
    if second = 60 then some ⟨seconds + 59, 1000000000 + nanos⟩
    else some ⟨seconds + second, nanos⟩

/-- A year of up to four digits, or of any number behind a sign. -/
def year? (cs : List Char) : Option (Int × List Char) :=
  match cs with
  | '-' :: rest => (number? 1 rest.length rest).map fun (n, rest) => (-(n : Int), rest)
  | '+' :: rest => (number? 1 rest.length rest).map fun (n, rest) => ((n : Int), rest)
  | cs => (number? 1 4 cs).map fun (n, rest) => ((n : Int), rest)

/-- A date, in which blanks may stand before each number. -/
def ofDateText? (cs : List Char) : Option Instant := do
  let (year, rest) ← year? (trimStart cs)
  let (month, rest) ← number? 1 2 (trimStart (← mark? '-' rest))
  let (day, rest) ← number? 1 2 (trimStart (← mark? '-' rest))
  if !rest.isEmpty then none
  (Date.ofParts? year month day).map ofDate

def ofText? (text : String) : Option Instant :=
  (ofRfc3339? text.toList).or (ofDateText? text.toList)

/-! ## Writing -/

/-- A number in at least `width` digits. -/
def padded (width n : Nat) : List Char :=
  let digits := Nat.toDigits 10 n
  List.replicate (width - digits.length) '0' ++ digits

/-- Years past four digits, and those before year zero, have a sign. -/
def yearChars (year : Int) : List Char :=
  if year < 0 then '-' :: padded 4 year.natAbs
  else if 9999 < year then '+' :: padded 4 year.natAbs
  else padded 4 year.natAbs

def chars (instant : Instant) : List Char :=
  let date := instant.date
  let second := (instant.seconds % secondsPerDay).toNat
  let leap := instant.nanos / 1000000000
  yearChars date.year ++ '-' :: (padded 2 date.month ++ '-' :: (padded 2 date.day ++ 'T' ::
    (padded 2 (second / 3600) ++ ':' :: (padded 2 (second / 60 % 60) ++ ':' ::
      (padded 2 (second % 60 + leap) ++ '.' ::
        (padded 3 (instant.nanos % 1000000000 / 1000000) ++ ['Z']))))))

/-- The instant in UTC, cut to milliseconds. -/
def text (instant : Instant) : String := String.ofList instant.chars

end Instant

end SchemaQuery
