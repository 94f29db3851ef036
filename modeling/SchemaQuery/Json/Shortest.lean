import SchemaQuery.Json.Binary64

/-!
# The shortest decimal of a double

The decimals that read as a given number fill the interval between the midpoints to its two
neighbours, ends included when the rank is even. The digits written are the fewest that reach into
this interval, and among those the nearest to the number. All of it is arithmetic on natural
numbers in half units, so that midpoints are whole.
-/

namespace SchemaQuery.Binary64

/-- `digits * 10 ^ exponent`, with no trailing zero in `digits`. -/
structure Decimal where
  digits : Nat
  exponent : Int
  deriving DecidableEq

/-- The exponent of the leading digit of a fraction below one: the number of times it must be
multiplied by ten to reach one, negated. -/
def leadingBelowOne (num den : Nat) : Nat → Int
  | 0 => 0
  | fuel + 1 => if den ≤ num then 0 else leadingBelowOne (num * 10) den fuel - 1

/-- The exponent of the leading digit of `num / den`. -/
def leading (num den : Nat) : Int :=
  if den ≤ num then ((Nat.toDigits 10 (num / den)).length : Int) - 1
  else leadingBelowOne num den 400

/-- Whether `digits * 10 ^ exponent` lies in the interval that reads as `rank`. -/
def reads (rank digits : Nat) (exponent : Int) : Bool :=
  let low := unitsOfRank (rank - 1) + unitsOfRank rank
  let high := unitsOfRank rank + unitsOfRank (rank + 1)
  let value := 2 * (digits * Nat.pow 10 exponent.toNat * one)
  let den := Nat.pow 10 (-exponent).toNat
  if rank % 2 = 0 then low * den ≤ value && value ≤ high * den
  else low * den < value && value < high * den

/-- The neighbours of the number on the grid `10 ^ exponent`, the nearer first. -/
def neighbours (units : Nat) (exponent : Int) : List Nat :=
  let num := units * Nat.pow 10 (-exponent).toNat
  let den := Nat.pow 10 exponent.toNat * one
  let below := num / den
  let near := roundDiv num den
  if near = below then [below, below + 1] else [below + 1, below]

/-- The first grid, from coarse to fine, on which a neighbour of the number reads back. -/
def search (rank units : Nat) (exponent : Int) : Nat → Decimal
  | 0 => ⟨(neighbours units exponent).headD 0, exponent⟩
  | fuel + 1 =>
      match (neighbours units exponent).find? (fun digits => reads rank digits exponent) with
      | some digits => ⟨digits, exponent⟩
      | none => search rank units (exponent - 1) fuel

/-- Trailing zeros move into the exponent. -/
def stripZeros (decimal : Decimal) : Nat → Decimal
  | 0 => decimal
  | fuel + 1 =>
      if decimal.digits ≠ 0 ∧ decimal.digits % 10 = 0 then
        stripZeros ⟨decimal.digits / 10, decimal.exponent + 1⟩ fuel
      else decimal

/-- Seventeen digits always suffice. -/
def shortest (x : Binary64) : Decimal :=
  if x.rank = 0 then ⟨0, 0⟩
  else stripZeros (search x.rank x.units (leading x.units one) 16) 20

/-- How a decimal is spelled: positional for a leading exponent in `lowest ≤ e < highest`,
otherwise with one digit before the point and a signed exponent. -/
structure Spelling where
  lowest : Int
  highest : Int

/-- The digits with a point after the first `whole` of them. -/
def pointed (digits : List Char) (whole : Nat) : List Char :=
  digits.take whole ++ '.' :: (if digits.length ≤ whole then ['0'] else digits.drop whole)

def Spelling.write (spelling : Spelling) (decimal : Decimal) : List Char :=
  let digits := Nat.toDigits 10 decimal.digits
  let leading := (digits.length : Int) + decimal.exponent - 1
  if spelling.lowest ≤ leading ∧ leading < spelling.highest then
    if leading < 0 then
      '0' :: '.' :: (List.replicate (leading.natAbs - 1) '0' ++ digits)
    else
      pointed (digits ++ List.replicate decimal.exponent.toNat '0') (leading.toNat + 1)
  else
    (if digits.length = 1 then digits else pointed digits 1) ++
      'e' :: (if leading < 0 then '-' else '+') :: Nat.toDigits 10 leading.natAbs

/-- Numbers are positional from `0.00001` up to below `10 ^ 16`. -/
def spelling : Spelling := ⟨-5, 16⟩

def chars (x : Binary64) : List Char :=
  (if x.negative then ['-'] else []) ++ spelling.write x.shortest

end SchemaQuery.Binary64
