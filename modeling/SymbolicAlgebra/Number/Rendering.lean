import SymbolicAlgebra.Decimal.Layout
import SymbolicAlgebra.Number.Basic

/-!
# The text of numbers

Fractions are written with a slash.  A complex number is written as its real
part followed by its signed imaginary part, and a zero real part is left out.

The sign of an imaginary fraction behind a real part is written apart from its
magnitude, which is formed in the bounded range.  So there is a number that
cannot be written: its imaginary part has the least integer as numerator.
-/

namespace SymbolicAlgebra

namespace Number

/-- A real part followed by an imaginary part of the given sign and magnitude. -/
def complexText (re : String) (negative : Bool) (magnitude : String) : String :=
  re ++ (if negative then "-" else "+") ++ magnitude ++ "i"

/-- The text of a number in a formula. -/
def text : Number → String
  | .int value => toString value
  | .rational value => toString value.num ++ "/" ++ toString value.den
  | .real value => Decimal.plain value
  | .complexInt value =>
      if value.re = 0 then toString value.im ++ "i"
      else complexText (toString value.re) (value.im < 0) (toString value.im.natAbs)
  | .complexRational value =>
      if value.re = 0 then Ratio.toText value.im ++ "i"
      else
        let magnitude := if value.im.num < 0 then -value.im else value.im
        complexText (Ratio.toText value.re) (value.im.num < 0) (Ratio.toText magnitude)
  | .complexReal value =>
      if value.re == 0 then Decimal.plain value.im ++ "i"
      else complexText (Decimal.plain value.re) (value.im < 0) (Decimal.plain value.im.abs)

/-- The integer that is negated in the bounded range when the number is written.
Other signs are written along with their part, or the magnitude behind them is
formed without a bound. -/
def negatedInText? : Number → Option Int
  | .complexRational value =>
      if value.re ≠ 0 ∧ value.im.num < 0 then some value.im.num else none
  | _ => none

end Number

end SymbolicAlgebra
