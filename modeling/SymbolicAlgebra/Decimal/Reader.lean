import SymbolicAlgebra.Double
import SymbolicAlgebra.Number.Range

/-!
# Reading numbers

The decimal notation of integers and doubles: an optional sign, then digits
with an optional point and exponent, or the words for infinity and NaN in any
case.  Doubles are rounded to nearest.
-/

namespace SymbolicAlgebra

namespace Decimal

/-- The value of a digit string, or nothing when it is empty or holds another
character. -/
def readDigits? (text : List Char) : Option Nat :=
  if !text.isEmpty && text.all Char.isDigit then
    some (text.foldl (fun value digit => 10 * value + (digit.toNat - '0'.toNat)) 0)
  else none

/-- An optional sign and the characters after it. -/
def splitSign : List Char → Bool × List Char
  | '-' :: rest => (true, rest)
  | '+' :: rest => (false, rest)
  | text => (false, text)

/-- A signed digit string. -/
def readSigned? (text : List Char) : Option Int := do
  let (negative, digits) := splitSign text
  let magnitude ← readDigits? digits
  pure (if negative then -(magnitude : Int) else magnitude)

/-- An integer of the bounded range. -/
def readInt? (text : List Char) : Option Int := do
  checked (← readSigned? text)

/-- The double nearest to `digits * 10 ^ exponent`.  Exponents whose result
must overflow or vanish are not expanded. -/
def nearest (digits : Nat) (exponent : Int) : Float :=
  let leading : Int := exponent + (Nat.log2 digits * 30103 / 100000 : Nat)
  if digits = 0 then 0
  else if leading > 310 then Double.infinity
  else if leading < -400 then 0
  else Float.ofScientific digits (exponent < 0) exponent.natAbs

/-- An unsigned decimal: digits around an optional point, with at least one
digit, and an optional exponent. -/
def readMagnitude? (text : List Char) : Option Float := do
  let isMark := fun c => c == 'e' || c == 'E'
  let mantissa := text.takeWhile fun c => !isMark c
  let tail := text.dropWhile fun c => !isMark c
  let whole := mantissa.takeWhile (· != '.')
  let fraction := (mantissa.dropWhile (· != '.')).drop 1
  let digits ← readDigits? (whole ++ fraction)
  let power ←
    match tail with
    | [] => some 0
    | _ :: exponent => readSigned? exponent
  pure (nearest digits (power - fraction.length))

/-- The words for values without digits, in lower case. -/
def readWord? (text : List Char) : Option Float :=
  match String.ofList (text.map Char.toLower) with
  | "inf" | "infinity" => some Double.infinity
  | "nan" => some Double.nan
  | _ => none

/-- A double in decimal notation. -/
def readFloat? (text : List Char) : Option Float := do
  let (negative, magnitude) := splitSign text
  let value ← (readWord? magnitude).or (readMagnitude? magnitude)
  pure (if negative then -value else value)

end Decimal

end SymbolicAlgebra
