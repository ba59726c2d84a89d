import SymbolicAlgebra.Number.Arithmetic

/-!
# Powers, roots and logarithms of numbers

Integer powers of exact numbers are computed by repeated squaring and stay
exact while they are in range.  Square roots of perfect squares are exact.  The
remaining cases use double precision, with the principal complex value where a
negative real number has no real result.
-/

namespace SymbolicAlgebra

namespace Number

/-- The binary digits of a positive number below its leading one, most
significant first. -/
def trailingDigits (exponent : Nat) : List Bool :=
  ((List.range (Nat.log2 exponent)).reverse).map exponent.testBit

/-- The binary digits of a number, least significant first; zero has none. -/
def lowDigits (exponent : Nat) : List Bool :=
  if exponent = 0 then []
  else (List.range (Nat.log2 exponent + 1)).map exponent.testBit

/-- Continues a power in double precision over the remaining digits. -/
def powFloatDigits (base : Float) : List Bool → Float → Float
  | [], value => value
  | digit :: rest, value =>
      let square := value * value
      powFloatDigits base rest (if digit then square * base else square)

/-- Repeated squaring over the remaining digits, most significant first.  When
a step leaves the range, that step and all later ones are done in double
precision from the last value in range. -/
def powIntDigits (base : Int) : List Bool → Int → Number
  | [], value => .int value
  | digit :: rest, value =>
      let step := do
        let square ← checked (value * value)
        if digit then checked (square * base) else pure square
      match step with
      | some next => powIntDigits base rest next
      | none =>
          .real (powFloatDigits (Float.ofInt base) (digit :: rest) (Float.ofInt value))

/-- A natural power of an integer. -/
def powNat (base : Int) (exponent : Nat) : Number :=
  if exponent = 0 then .int 1 else powIntDigits base (trailingDigits exponent) base

/-- An integer power of an integer.  A negative power is the reciprocal of the
positive one, and a negative power of zero is NaN. -/
def powInt (base exponent : Int) : Number :=
  if exponent = minInt then .real ((Float.ofInt base).pow (Float.ofInt exponent))
  else if exponent < 0 then
    match powNat base exponent.natAbs with
    | .int 0 => nan
    | .int value => ofFraction 1 value
    | other => .real (1 / other.toFloat?.getD Double.nan)
  else powNat base exponent.toNat

/-- An integer power of a fraction, part by part. -/
def powRatio (base : Rat) (exponent : Int) : Number :=
  if exponent = minInt then .real ((Ratio.toFloat base).pow (Float.ofInt exponent))
  else
    let parts := if exponent < 0 then ((base.den : Int), base.num) else (base.num, (base.den : Int))
    match powNat parts.1 exponent.natAbs, powNat parts.2 exponent.natAbs with
    | .int numerator, .int denominator => ofFraction numerator denominator
    | numerator, denominator =>
        match numerator.toFloat?, denominator.toFloat? with
        | some n, some d => if d == 0 then nan else .real (n / d)
        | _, _ => nan

/-- Repeated squaring of a complex number with integer parts over the digits
of the exponent, least significant first; absent when a product leaves the
range. -/
def powComplexIntDigits :
    List Bool → Cartesian Int → Cartesian Int → Option (Cartesian Int)
  | [], _, result => some result
  | digit :: rest, square, result => do
      let result ← if digit then mulComplexInt? result square else pure result
      if rest.isEmpty then pure result
      else powComplexIntDigits rest (← mulComplexInt? square square) result

/-- A natural power of a complex number with integer parts. -/
def powComplexInt (base : Cartesian Int) (exponent : Nat) : Number :=
  match powComplexIntDigits (lowDigits exponent) base ⟨1, 0⟩ with
  | some result => ofComplexInt result.re result.im
  | none =>
      let base : Cartesian Float := ⟨Float.ofInt base.re, Float.ofInt base.im⟩
      ofComplexFloat (base.powReal (Float.ofNat exponent))

/-- The principal square root of an integer, exact for perfect squares. -/
def sqrtInt (value : Int) : Number :=
  let root := Nat.sqrt value.natAbs
  let rounded := (Float.ofNat value.natAbs).sqrt
  if root * root = value.natAbs then
    if 0 ≤ value then .int root else ofComplexInt 0 root
  else if 0 ≤ value then .real rounded
  else ofComplexFloat ⟨0, rounded⟩

/-- The principal square root of a double. -/
def sqrtFloat (value : Float) : Number :=
  if value < 0 then ofComplexFloat ⟨0, (-value).sqrt⟩ else .real value.sqrt

/-- The principal square root, exact where both parts of the radicand are
perfect squares. -/
def sqrt : Number → Number
  | .int value => sqrtInt value
  | .rational value =>
      match sqrtInt value.num, sqrtInt value.den with
      | .int numerator, .int denominator => ofFraction numerator denominator
      | .complexInt numerator, .int denominator =>
          ofComplexRatio 0 ((Ratio.ofInts? numerator.im denominator).getD 0)
      | _, _ => sqrtFloat (Ratio.toFloat value)
  | .real value => sqrtFloat value
  | number => ofComplexFloat number.toComplexFloat.sqrt

/-- The exponents that a complex double is raised to by repeated squaring. -/
def IsSmallExponent (exponent : Int) : Prop := -2147483648 ≤ exponent ∧ exponent ≤ 2147483647

instance (exponent : Int) : Decidable (IsSmallExponent exponent) :=
  inferInstanceAs (Decidable (-2147483648 ≤ exponent ∧ exponent ≤ 2147483647))

/-- A power in double precision.  A negative base with a fractional exponent
gives the principal complex value. -/
def powFloat (base exponent : Number) : Number :=
  match base.toFloat?, exponent.toFloat? with
  | some b, some e =>
      if b >= 0 || b.isNaN || Double.isIntegral e then .real (b.pow e)
      else ofComplexFloat (Cartesian.ofPolar ((-b).pow e) (Double.pi * e))
  | _, _ =>
      match exponent.asInt? with
      | some e =>
          if IsSmallExponent e then ofComplexFloat (base.toComplexFloat.powInt e)
          else ofComplexFloat (base.toComplexFloat.powComplex exponent.toComplexFloat)
      | none => ofComplexFloat (base.toComplexFloat.powComplex exponent.toComplexFloat)

/-- A number raised to a number. -/
def pow (base exponent : Number) : Number :=
  match base, exponent with
  | .int b, .int e => powInt b e
  | .rational b, .int e => powRatio b e
  | .complexInt b, .int e =>
      if 0 ≤ e then powComplexInt b e.toNat else powFloat base exponent
  | _, .rational e =>
      if !base.isComplex && e == (1 / 2 : Rat) then base.sqrt else powFloat base exponent
  | _, _ => powFloat base exponent

/-- The principal natural logarithm. -/
def ln (number : Number) : Number :=
  if number.isOne then .int 0
  else
    match number.toFloat? with
    | some value =>
        if value > 0 || value.isNaN then .real value.log
        else if value == 0 then .real (-Double.infinity)
        else ofComplexFloat ⟨(-value).log, Double.pi⟩
    | none => ofComplexFloat number.toComplexFloat.ln

/-- The magnitude. -/
def abs : Number → Number
  | .int value =>
      match checked value.natAbs with
      | some magnitude => .int magnitude
      | none => .real (Float.ofInt value).abs
  | number@(.rational value) => if value.num < 0 then number.neg else number
  | .real value => .real value.abs
  | number@(.complexInt value) =>
      match normSquaredInt? value with
      | some square => sqrtInt square
      | none => .real number.toComplexFloat.norm
  | number => .real number.toComplexFloat.norm

/-- The sign `-1`, `0` or `1` of a real number, `z / |z|` of a complex one. -/
def signum (number : Number) : Number :=
  if number.isNaN then nan
  else
    match number.toFloat? with
    | some value => if value > 0 then .int 1 else if value < 0 then .int (-1) else .int 0
    | none =>
        let z := number.toComplexFloat
        ofComplexFloat (z.unscale z.norm)

end Number

end SymbolicAlgebra
