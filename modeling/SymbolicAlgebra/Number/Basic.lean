import SymbolicAlgebra.Number.Cartesian
import SymbolicAlgebra.Number.Ratio
import SymbolicAlgebra.Number.Tier

/-!
# Numbers

A numeric value in one of six representations: three real ones (integer,
fraction, double) and their complex counterparts.  Constructors that normalize
keep a value in the narrowest representation that holds it, so that a fraction
with denominator one is an integer and a complex number without imaginary part
is real.
-/

namespace SymbolicAlgebra

/-- A number in one of the six representations of the tower. -/
inductive Number where
  | int (value : Int)
  | rational (value : Rat)
  | real (value : Float)
  | complexInt (value : Cartesian Int)
  | complexRational (value : Cartesian Rat)
  | complexReal (value : Cartesian Float)
deriving BEq, DecidableEq

namespace Number

/-- The real number that stands for an undefined result. -/
def nan : Number := .real Double.nan

/-! ## Normalizing constructors -/

/-- A fraction, stored as an integer when it is whole. -/
def ofRatio (ratio : Rat) : Number :=
  if Ratio.isInteger ratio then .int ratio.num else .rational ratio

/-- The quotient of two integers of the range.  A zero denominator gives NaN;
operands that cannot be normalized in range give a double. -/
def ofFraction (numerator denominator : Int) : Number :=
  if denominator = 0 then nan
  else
    match Ratio.ofInts? numerator denominator with
    | some ratio => ofRatio ratio
    | none => .real (Float.ofInt numerator / Float.ofInt denominator)

/-- A complex number with integer parts. -/
def ofComplexInt (re im : Int) : Number :=
  if im = 0 then .int re else .complexInt ⟨re, im⟩

/-- A complex number with rational parts. -/
def ofComplexRatio (re im : Rat) : Number :=
  if im = 0 then ofRatio re
  else if Ratio.isInteger re && Ratio.isInteger im then .complexInt ⟨re.num, im.num⟩
  else .complexRational ⟨re, im⟩

/-- A complex number with double-precision parts. -/
def ofComplexFloat (z : Cartesian Float) : Number :=
  if z.im == 0 then .real z.re else .complexReal z

/-! ## Tiers -/

def tier : Number → Tier
  | .int _ => .integer
  | .rational _ => .rational
  | .real _ => .real
  | .complexInt _ => .complexInteger
  | .complexRational _ => .complexRational
  | .complexReal _ => .complexReal

/-- Values like this one can be represented at the tier. -/
def fits (number : Number) (tier : Tier) : Bool :=
  match number with
  | .int _ => tier ∉ [.boolean, .nonNumeric]
  | .rational _ => tier ∈ [.rational, .real, .complexRational, .complexReal]
  | .real _ => tier ∈ [.real, .complexReal]
  | .complexInt _ => tier ∈ [.complexInteger, .complexRational, .complexReal]
  | .complexRational _ => tier ∈ [.complexRational, .complexReal]
  | .complexReal _ => tier ∈ [.complexReal]

/-- The tiers at which a computation on two numbers is tried: their join, then
every later tier that holds both. -/
def sharedTiers (left right : Number) : List Tier :=
  let start := left.tier.join right.tier
  start :: (start.upwards.drop 1).filter fun tier => left.fits tier && right.fits tier

/-- The result of an operation at the first tier where it succeeds. -/
def climb (left right : Number) (operation : Tier → Option Number) : Number :=
  ((sharedTiers left right).findSome? operation).getD nan

/-! ## Views -/

def asInt? : Number → Option Int
  | .int value => some value
  | _ => none

/-- Doubles below this magnitude are read as integers when they are integral. -/
def integralLimit : Float := 9.0e15

/-- The integer value of an integer or of an integral double of moderate size. -/
def integerValue? : Number → Option Int
  | .int value => some value
  | .real value =>
      if Double.isIntegral value && value.abs < integralLimit then some value.toInt64.toInt
      else none
  | _ => none

def toRatio? : Number → Option Rat
  | .int value => some value
  | .rational value => some value
  | _ => none

/-- The nearest double of a real number. -/
def toFloat? : Number → Option Float
  | .int value => some (Float.ofInt value)
  | .rational value => some (Ratio.toFloat value)
  | .real value => some value
  | _ => none

def toComplexInt? : Number → Option (Cartesian Int)
  | .int value => some ⟨value, 0⟩
  | .complexInt value => some value
  | _ => none

def toComplexRatio? : Number → Option (Cartesian Rat)
  | .int value => some ⟨value, 0⟩
  | .rational value => some ⟨value, 0⟩
  | .complexInt value => some ⟨value.re, value.im⟩
  | .complexRational value => some value
  | _ => none

def toComplexFloat : Number → Cartesian Float
  | .int value => .ofReal (Float.ofInt value)
  | .rational value => .ofReal (Ratio.toFloat value)
  | .real value => .ofReal value
  | .complexInt value => ⟨Float.ofInt value.re, Float.ofInt value.im⟩
  | .complexRational value => ⟨Ratio.toFloat value.re, Ratio.toFloat value.im⟩
  | .complexReal value => value

/-! ## Predicates -/

def isComplex : Number → Bool
  | .complexInt _ | .complexRational _ | .complexReal _ => true
  | _ => false

/-- The value is stored without rounding. -/
def isExact : Number → Bool
  | .real _ | .complexReal _ => false
  | _ => true

/-- The number is zero.  Only integers and doubles can be. -/
def isZero : Number → Bool
  | .int value => value == 0
  | .real value => value == 0
  | _ => false

/-- The number is stored without rounding and is zero, in any representation. -/
def isExactZero (number : Number) : Bool := number.toComplexRatio? = some ⟨0, 0⟩

def isOne : Number → Bool
  | .int value => value == 1
  | .real value => value == 1
  | _ => false

def isMinusOne : Number → Bool
  | .int value => value == -1
  | .real value => value == -1
  | _ => false

/-- The number is real and strictly negative. -/
def isNegative : Number → Bool
  | .int value => value < 0
  | .rational value => value.num < 0
  | .real value => value < 0
  | _ => false

def isNaN : Number → Bool
  | .real value => value.isNaN
  | .complexReal value => value.re.isNaN || value.im.isNaN
  | _ => false

/-- The normal form of numbers: integers and parts of fractions are in range,
whole values are stored as integers and real values without an imaginary part. -/
def Canonical : Number → Prop
  | .int value => InRange value
  | .rational value => Ratio.InRange value ∧ value.den ≠ 1
  | .real _ => True
  | .complexInt value => InRange value.re ∧ InRange value.im ∧ value.im ≠ 0
  | .complexRational value =>
      Ratio.InRange value.re ∧ Ratio.InRange value.im ∧ value.im ≠ 0 ∧
        ¬ (value.re.den = 1 ∧ value.im.den = 1)
  | .complexReal value => (value.im == 0) = false

end Number

end SymbolicAlgebra
