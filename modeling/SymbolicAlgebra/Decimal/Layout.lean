import SymbolicAlgebra.Decimal.Shortest

/-!
# The text of doubles

Two layouts of the shortest decimal.  The plain layout writes every number
positionally and an integral one without a point.  The source layout always
shows that the number is a double, with a point or an exponent, and turns to an
exponent for very large and very small magnitudes.
-/

namespace SymbolicAlgebra

namespace Decimal

/-- How doubles are laid out. -/
structure Layout where
  /-- A fraction is written even when it is zero. -/
  keepsFraction : Bool
  /-- Leading exponents written positionally; others get an exponent part. -/
  isPositional : Int → Bool

/-- Every number is written positionally, integral ones without a point. -/
def Layout.plain : Layout where
  keepsFraction := false
  isPositional := fun _ => true

/-- Numbers from `10 ^ 16` on and nonzero ones below `10 ^ -4` get an exponent,
all others a point. -/
def Layout.source : Layout where
  keepsFraction := true
  isPositional := fun leading => -5 < leading && leading < 16

/-- A run of zeros. -/
def zeros (count : Nat) : String := String.ofList (List.replicate count '0')

namespace Scientific

/-- The decimal written out positionally. -/
def positional (decimal : Scientific) (keepsFraction : Bool) : String :=
  let digits := toString decimal.digits
  let fraction := if keepsFraction then ".0" else ""
  if 0 ≤ decimal.exponent then digits ++ zeros decimal.exponent.toNat ++ fraction
  else
    let places := (-decimal.exponent).toNat
    if digits.length ≤ places then "0." ++ zeros (places - digits.length) ++ digits
    else
      let split := digits.length - places
      let characters := digits.toList
      String.ofList (characters.take split) ++ "." ++ String.ofList (characters.drop split)

/-- The decimal with one digit before the point and an exponent. -/
def exponential (decimal : Scientific) (leading : Int) : String :=
  match (toString decimal.digits).toList with
  | [] => ""
  | first :: rest =>
      let fraction := if rest.isEmpty then "" else "." ++ String.ofList rest
      String.singleton first ++ fraction ++ "e" ++ toString leading

end Scientific

/-- The text of a double. -/
def render (layout : Layout) (value : Float) : String :=
  if value.isNaN then "NaN"
  else
    let sign := if Double.hasNegativeSign value then "-" else ""
    let magnitude :=
      if value.isInf then "inf"
      else if value == 0 then if layout.keepsFraction then "0.0" else "0"
      else
        let decimal := shortest value
        let leading := decimal.exponent + (toString decimal.digits).length - 1
        if layout.isPositional leading then decimal.positional layout.keepsFraction
        else decimal.exponential leading
    sign ++ magnitude

/-- The text of a double in a formula. -/
def plain (value : Float) : String := render .plain value

/-- The text of a double in the structural form of a tree. -/
def source (value : Float) : String := render .source value

end Decimal

end SymbolicAlgebra
