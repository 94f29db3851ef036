/-!
# Finite double-precision numbers

A finite double is a sign and a rank: its place among the magnitudes `0, 2 ^ -1074, …`, counted
from zero. Neighbouring ranks are neighbouring magnitudes, so comparison is comparison of ranks,
and every magnitude is a whole number of units of `2 ^ -1074`. Arithmetic is exact in those units
and rounds once, to the nearest rank, ties to the even one.
-/

namespace SchemaQuery

/-- A quotient rounded to the nearest natural number, a tie to the even one. -/
def roundDiv (num den : Nat) : Nat :=
  let quotient := num / den
  let rest := 2 * (num % den)
  if rest < den then quotient
  else if rest = den then quotient + quotient % 2
  else quotient + 1

/-- The number of ranks from one power of two to the next. -/
def Binary64.binade : Nat := 4503599627370496

/-- The first rank past the finite ones. -/
def Binary64.rankLimit : Nat := 2047 * binade

structure Binary64 where
  negative : Bool
  rank : Nat
  rank_lt : rank < Binary64.rankLimit
  deriving DecidableEq

namespace Binary64

/-- The magnitude of a rank in units of `2 ^ -1074`. -/
def unitsOfRank (rank : Nat) : Nat :=
  let scale := rank / binade
  if scale = 0 then rank else (binade + rank % binade) * Nat.pow 2 (scale - 1)

/-- The rank nearest to `num / den` units. Below `2 ^ 53` units ranks and units agree; above, the
step between neighbours doubles with each binary digit. -/
def rankNear (num den : Nat) : Nat :=
  let dropped := (num / den).log2 - 52
  dropped * binade + roundDiv num (den * Nat.pow 2 dropped)

/-- The number nearest to `num / den` units; nothing past the largest finite one. -/
def round? (negative : Bool) (num den : Nat) : Option Binary64 :=
  let rank := rankNear num den
  if h : rank < rankLimit then some ⟨negative, rank, h⟩ else none

def zero : Binary64 := ⟨false, 0, by decide⟩

def largest (negative : Bool) : Binary64 := ⟨negative, rankLimit - 1, by decide⟩

def units (x : Binary64) : Nat := unitsOfRank x.rank

/-- The signed magnitude in units. -/
def signedUnits (x : Binary64) : Int := if x.negative then -(x.units : Int) else x.units

/-- The place of a number in the order of all; the two zeros share one. -/
def position (x : Binary64) : Int := if x.negative then -(x.rank : Int) else x.rank

def neg (x : Binary64) : Binary64 := ⟨!x.negative, x.rank, x.rank_lt⟩

/-- Units in one. -/
def one : Nat := Nat.pow 2 1074

/-- Integers past the finite range become the largest number of their sign. -/
def ofInt (n : Int) : Binary64 :=
  (round? (decide (n < 0)) (n.natAbs * one) 1).getD (largest (decide (n < 0)))

/-- A sum that cancels is the positive zero, except that two negative zeros keep their sign. -/
def add? (x y : Binary64) : Option Binary64 :=
  let sum := x.signedUnits + y.signedUnits
  if sum = 0 then some ⟨x.negative && y.negative, 0, by decide⟩
  else round? (decide (sum < 0)) sum.natAbs 1

def sub? (x y : Binary64) : Option Binary64 := add? x y.neg

def mul? (x y : Binary64) : Option Binary64 :=
  round? (x.negative != y.negative) (x.units * y.units) one

/-- Nothing for a zero divisor. -/
def div? (x y : Binary64) : Option Binary64 :=
  if y.rank = 0 then none else round? (x.negative != y.negative) (x.units * one) y.units

def compare (x y : Binary64) : Ordering := Ord.compare x.position y.position

/-- Equality of values: the two zeros are equal. -/
instance : BEq Binary64 := ⟨fun x y => x.position == y.position⟩

/-- The nearest number to `10 ^ n`. -/
def tenTo? (n : Nat) : Option Binary64 := round? false (Nat.pow 10 n * one) 1

/-- The largest power of ten in range is `10 ^ 308`. -/
def reach : Nat := 308

/-- Repeated division by the largest power of ten; a zero stays. -/
def shrink (x : Binary64) : Nat → Option Binary64
  | 0 => some x
  | times + 1 =>
      if x.rank = 0 then some x
      else match (tenTo? reach).bind x.div? with
        | some y => shrink y times
        | none => none

/-- Division by `10 ^ exponent`: by the largest power while the exponent exceeds it, then by the
power that is left. -/
def scaleDown (x : Binary64) (exponent : Nat) : Option Binary64 :=
  let times := (exponent - 1) / reach
  (shrink x times).bind fun y =>
    if y.rank = 0 then some y else (tenTo? (exponent - times * reach)).bind y.div?

/-- A positive decimal `significand * 10 ^ exponent`. The significand is rounded first and then
scaled by rounded powers of ten, so the result may miss the nearest number by a rank. -/
def ofDecimal? (significand : Nat) (exponent : Int) : Option Binary64 :=
  let x := ofInt significand
  if exponent < 0 then scaleDown x exponent.natAbs
  else if exponent ≤ reach then (tenTo? exponent.toNat).bind x.mul?
  else if x.rank = 0 then some x
  else none

end Binary64

end SchemaQuery
