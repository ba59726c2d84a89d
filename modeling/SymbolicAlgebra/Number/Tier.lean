/-!
# The numeric tower

Numeric values live at one of seven tiers, and everything else is non-numeric.
The join of two tiers is the lowest tier that holds values of both.  The tower
is not a chain: integers and rationals sit below the real tier and below the
complex tiers, but a real value joins with any complex one only at the top.
-/

namespace SymbolicAlgebra

/-- The tiers, in the order in which a computation climbs through them. -/
inductive Tier where
  | boolean
  | integer
  | rational
  | real
  | complexInteger
  | complexRational
  | complexReal
  | nonNumeric
deriving DecidableEq, Repr

namespace Tier

/-- All tiers in climbing order. -/
def all : List Tier :=
  [boolean, integer, rational, real, complexInteger, complexRational, complexReal, nonNumeric]

def name : Tier → String
  | boolean => "Boolean"
  | integer => "Integer"
  | rational => "Rational"
  | real => "Real"
  | complexInteger => "ComplexInteger"
  | complexRational => "ComplexRational"
  | complexReal => "ComplexReal"
  | nonNumeric => "NonNumeric"

/-- Values of this tier are whole numbers, or truth values read as such. -/
def isWhole : Tier → Bool
  | boolean | integer => true
  | _ => false

/-- Values of this tier are exact and real. -/
def isExactReal : Tier → Bool
  | boolean | integer | rational => true
  | _ => false

/-- Values of this tier are real. -/
def isReal : Tier → Bool
  | boolean | integer | rational | real => true
  | _ => false

/-- Values of this tier have whole parts. -/
def isWholeComplex : Tier → Bool
  | boolean | integer | complexInteger => true
  | _ => false

/-- Values of this tier have exact parts. -/
def isExact : Tier → Bool
  | boolean | integer | rational | complexInteger | complexRational => true
  | _ => false

/-- The lowest tier that can hold values of both tiers. -/
def join (left right : Tier) : Tier :=
  if left = nonNumeric ∨ right = nonNumeric then nonNumeric
  else if left = boolean ∧ right = boolean then boolean
  else if left.isWhole && right.isWhole then integer
  else if left.isExactReal && right.isExactReal then rational
  else if left.isReal && right.isReal then real
  else if left.isWholeComplex && right.isWholeComplex then complexInteger
  else if left.isExact && right.isExact then complexRational
  else complexReal

/-- The tiers from this one upwards. -/
def upwards (tier : Tier) : List Tier := all.dropWhile (· ≠ tier)

end Tier

end SymbolicAlgebra
