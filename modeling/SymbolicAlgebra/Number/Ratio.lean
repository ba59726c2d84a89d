import SymbolicAlgebra.Number.Range

/-!
# Checked rational arithmetic

A rational number is stored as a reduced fraction.  The operations below return
the exact result, but only when every intermediate integer of the textbook
computation lies in the bounded range.  The intermediate integers are those of
cross cancellation before multiplying and of the least common denominator
before adding, so whether a computation is refused depends on these steps and
not only on the final fraction.
-/

namespace SymbolicAlgebra

namespace Ratio

/-- Both parts of a reduced fraction lie in the bounded range. -/
def InRange (ratio : Rat) : Prop :=
  SymbolicAlgebra.InRange ratio.num ∧ SymbolicAlgebra.InRange ratio.den

instance (ratio : Rat) : Decidable (InRange ratio) :=
  inferInstanceAs (Decidable
    (SymbolicAlgebra.InRange ratio.num ∧ SymbolicAlgebra.InRange ratio.den))

/-- The fraction is a whole number. -/
def isInteger (ratio : Rat) : Bool := ratio.den == 1

/-- The fraction of two integers of the range.  A zero denominator is refused,
and so is the least integer, whose negation is out of range. -/
def ofInts? (numerator denominator : Int) : Option Rat :=
  if denominator = 0 ∨ numerator = minInt ∨ denominator = minInt then none
  else some (Rat.divInt numerator denominator)

/-- The two numerators over the least common denominator, when the denominator
and both products are in range. -/
def overCommonDenominator? (left right : Rat) : Option (Int × Int) := do
  let shared := Nat.gcd left.den right.den
  let common ← checked (((left.den / shared : Nat) : Int) * right.den)
  let leftNumerator ← checked (common / left.den * left.num)
  let rightNumerator ← checked (common / right.den * right.num)
  pure (leftNumerator, rightNumerator)

/-- The sum, when the common denominator, both scaled numerators and their sum
are in range. -/
def add? (left right : Rat) : Option Rat := do
  let numerators ← overCommonDenominator? left right
  let _ ← checked (numerators.1 + numerators.2)
  pure (left + right)

/-- The difference, under the same conditions as for the sum. -/
def sub? (left right : Rat) : Option Rat := do
  let numerators ← overCommonDenominator? left right
  let _ ← checked (numerators.1 - numerators.2)
  pure (left - right)

/-- The product, when both products that remain after cross cancellation are
in range. -/
def mul? (left right : Rat) : Option Rat := do
  let leftFactor := Nat.gcd left.num.natAbs right.den
  let rightFactor := Nat.gcd left.den right.num.natAbs
  let _ ← checked (left.num / leftFactor * (right.num / rightFactor))
  let _ ← checked (((left.den / rightFactor : Nat) : Int) * (right.den / leftFactor : Nat))
  pure (left * right)

/-- The reduced fraction of two integers, when making the denominator positive
keeps both parts in range. -/
def normalized? (numerator denominator : Int) : Option Rat :=
  if denominator = 0 then none
  else if numerator = 0 then some 0
  else if numerator = denominator then some 1
  else if 0 < denominator then some (Rat.divInt numerator denominator)
  else do
    let shared := Int.gcd numerator denominator
    let _ ← checked (-(numerator / shared))
    let _ ← checked (-(denominator / shared))
    pure (Rat.divInt numerator denominator)

/-- The quotient of two fractions.  Equal denominators or equal numerators
cancel at once; otherwise both products that remain after cross cancellation
must be in range.  A zero divisor is refused. -/
def div? (left right : Rat) : Option Rat :=
  if right.num = 0 then none
  else if left.den = right.den then normalized? left.num right.num
  else if left.num = right.num then normalized? right.den left.den
  else do
    let numerators := Int.gcd left.num right.num
    let denominators := Nat.gcd left.den right.den
    let numerator ← checked (left.num / numerators * (right.den / denominators : Nat))
    let denominator ←
      checked (((left.den / denominators : Nat) : Int) * (right.num / numerators))
    normalized? numerator denominator

/-- The negated fraction, when its numerator stays in range. -/
def neg? (ratio : Rat) : Option Rat := do
  let _ ← checked (-ratio.num)
  pure (-ratio)

/-- The quotient of the two parts, each rounded to double precision. -/
def toFloat (ratio : Rat) : Float :=
  Float.ofInt ratio.num / Float.ofNat ratio.den

/-- Decimal text: the numerator alone for a whole number, else both parts. -/
def toText (ratio : Rat) : String :=
  if isInteger ratio then toString ratio.num
  else toString ratio.num ++ "/" ++ toString ratio.den

end Ratio

end SymbolicAlgebra
