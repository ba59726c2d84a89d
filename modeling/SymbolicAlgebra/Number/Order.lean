import SymbolicAlgebra.Number.Basic

/-!
# Order and equality by value

Real numbers are ordered by value across representations: exactly when both
are exact, in double precision otherwise.  Complex numbers are not ordered, and
NaN is neither less than, equal to nor greater than anything.
-/

namespace SymbolicAlgebra

/-- The order of two doubles, absent when either is NaN. -/
def Double.compare? (left right : Float) : Option Ordering :=
  if left < right then some .lt
  else if left == right then some .eq
  else if left > right then some .gt
  else none

namespace Number

/-- The order of two real numbers, absent for complex operands or NaN. -/
def compare? (left right : Number) : Option Ordering :=
  if left.isComplex || right.isComplex then none
  else
    match left.toRatio?, right.toRatio? with
    | some a, some b => some (compare (a.num * b.den) (b.num * a.den))
    | _, _ => do Double.compare? (← left.toFloat?) (← right.toFloat?)

/-- Equality of values across representations. -/
def valueEq (left right : Number) : Bool :=
  if !left.isComplex && !right.isComplex then left.compare? right == some .eq
  else
    match left.toComplexRatio?, right.toComplexRatio? with
    | some z, some w => z == w
    | _, _ => left.toComplexFloat == right.toComplexFloat

end Number

end SymbolicAlgebra
