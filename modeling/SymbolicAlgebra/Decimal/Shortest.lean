import SymbolicAlgebra.Double

/-!
# Shortest decimals

The fewest decimal digits that identify a double.  A decimal identifies a
double when it lies in the interval of real numbers that round to it; the ends
of the interval belong to it when the mantissa is even.  On the grid of all
decimals with a given number of digits only the two neighbours of the value
need to be tested, so the first grid with a hit gives the shortest decimal, and
the nearer of two hits is taken.
-/

namespace SymbolicAlgebra

namespace Decimal

/-- A positive decimal number `digits * 10 ^ exponent`. -/
structure Scientific where
  digits : Nat
  exponent : Int
deriving DecidableEq

/-- A nonnegative rational number given by two natural numbers. -/
structure Quotient where
  numerator : Nat
  denominator : Nat

namespace Quotient

/-- The quotient times a power of ten. -/
def scale (value : Quotient) (power : Int) : Quotient :=
  if 0 ≤ power then ⟨value.numerator * Nat.pow 10 power.toNat, value.denominator⟩
  else ⟨value.numerator, value.denominator * Nat.pow 10 (-power).toNat⟩

def le (left right : Quotient) : Bool :=
  left.numerator * right.denominator ≤ right.numerator * left.denominator

def lt (left right : Quotient) : Bool :=
  left.numerator * right.denominator < right.numerator * left.denominator

/-- The greatest natural number that is not above the quotient. -/
def floor (value : Quotient) : Nat := value.numerator / value.denominator

/-- The natural number `multiplier` times two to the power `exponent`. -/
def ofBinary (multiplier : Nat) (exponent : Int) : Quotient :=
  if 0 ≤ exponent then ⟨multiplier * Nat.pow 2 exponent.toNat, 1⟩
  else ⟨multiplier, Nat.pow 2 (-exponent).toNat⟩

end Quotient

/-- The real numbers that round to one double, and that double's value. -/
structure RoundingInterval where
  lower : Quotient
  value : Quotient
  upper : Quotient
  closed : Bool

namespace RoundingInterval

/-- The interval of the magnitude of a finite nonzero double.  Below a power of
two the neighbouring double is only half as far away. -/
def ofParts (part : Double.Parts) : RoundingInterval :=
  let isBoundary := part.mantissa == Nat.pow 2 52 && part.exponent > -1074
  let gap := if isBoundary then 1 else 2
  let exponent := part.exponent - 2
  { lower := .ofBinary (4 * part.mantissa - gap) exponent
    value := .ofBinary (4 * part.mantissa) exponent
    upper := .ofBinary (4 * part.mantissa + 2) exponent
    closed := part.mantissa % 2 == 0 }

/-- The interval in units of `10 ^ unit`. -/
def inUnits (interval : RoundingInterval) (unit : Int) : RoundingInterval :=
  { lower := interval.lower.scale (-unit)
    value := interval.value.scale (-unit)
    upper := interval.upper.scale (-unit)
    closed := interval.closed }

/-- The natural number lies in the interval. -/
def contains (interval : RoundingInterval) (candidate : Nat) : Bool :=
  let point : Quotient := ⟨candidate, 1⟩
  if interval.closed then interval.lower.le point && point.le interval.upper
  else interval.lower.lt point && point.lt interval.upper

/-- Of the two natural neighbours of the value, the one that lies in the
interval; the nearer one when both do, and the greater one on a tie. -/
def neighbour? (interval : RoundingInterval) : Option Nat :=
  let below := interval.value.floor
  let above := below + 1
  match interval.contains below, interval.contains above with
  | true, true =>
      let twice := 2 * interval.value.numerator
      let middle := (below + above) * interval.value.denominator
      some (if twice < middle then below else above)
  | true, false => some below
  | false, true => some above
  | false, false => none

end RoundingInterval

/-- The exponent of the leading decimal digit of a positive quotient, found
from an estimate that is off by at most one. -/
def leadingExponent (value : Quotient) : Int :=
  let binary : Int := (Nat.log2 value.numerator : Int) - Nat.log2 value.denominator
  let estimate := binary * 30103 / 100000
  let reaches (exponent : Int) : Bool := Quotient.le ⟨1, 1⟩ (value.scale (-exponent))
  if reaches (estimate + 1) then estimate + 1
  else if reaches estimate then estimate
  else estimate - 1

/-- Digits without trailing zeros, at most `fuel` of them removed. -/
def Scientific.trim : Nat → Scientific → Scientific
  | 0, decimal => decimal
  | fuel + 1, decimal =>
      if decimal.digits % 10 == 0 && decimal.digits != 0 then
        trim fuel ⟨decimal.digits / 10, decimal.exponent + 1⟩
      else decimal

/-- No double needs more digits than this. -/
def digitLimit : Nat := 17

/-- The shortest decimal that identifies the magnitude of a finite nonzero
double. -/
def shortest (value : Float) : Scientific :=
  let interval := RoundingInterval.ofParts (Double.parts value)
  let leading := leadingExponent interval.value
  let candidate? (count : Nat) : Option Scientific :=
    let unit := leading - count
    ((interval.inUnits unit).neighbour?).map fun digits => ⟨digits, unit⟩
  (((List.range digitLimit).findSome? candidate?).getD ⟨0, 0⟩).trim (digitLimit + 1)

end Decimal

end SymbolicAlgebra
