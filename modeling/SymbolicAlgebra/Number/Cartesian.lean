import SymbolicAlgebra.Double

/-!
# Complex numbers in Cartesian form

A pair of a real and an imaginary part over any type of parts, with the
elementary functions for double-precision parts.  The formulas fix the order of
the floating-point operations, so each function is determined to the last bit
by the real functions that it is built from.
-/

namespace SymbolicAlgebra

/-- A complex number given by its two parts. -/
structure Cartesian (Part : Type) where
  re : Part
  im : Part
deriving BEq, DecidableEq

namespace Cartesian

/-- A double as a complex number. -/
def ofReal (value : Float) : Cartesian Float := ⟨value, 0⟩

def addParts (z w : Cartesian Float) : Cartesian Float := ⟨z.re + w.re, z.im + w.im⟩

def subParts (z w : Cartesian Float) : Cartesian Float := ⟨z.re - w.re, z.im - w.im⟩

def negParts (z : Cartesian Float) : Cartesian Float := ⟨-z.re, -z.im⟩

/-- The complex conjugate. -/
def conj (z : Cartesian Float) : Cartesian Float := ⟨z.re, -z.im⟩

/-- The product, by the distributive law. -/
def mulParts (z w : Cartesian Float) : Cartesian Float :=
  ⟨z.re * w.re - z.im * w.im, z.re * w.im + z.im * w.re⟩

/-- The squared magnitude. -/
def normSquared (z : Cartesian Float) : Float := z.re * z.re + z.im * z.im

/-- The quotient, by multiplication with the conjugate. -/
def divParts (z w : Cartesian Float) : Cartesian Float :=
  let square := w.normSquared
  ⟨(z.re * w.re + z.im * w.im) / square, (z.im * w.re - z.re * w.im) / square⟩

/-- Both parts divided by a real number. -/
def unscale (z : Cartesian Float) (divisor : Float) : Cartesian Float :=
  ⟨z.re / divisor, z.im / divisor⟩

/-- The reciprocal. -/
def inverse (z : Cartesian Float) : Cartesian Float :=
  let square := z.normSquared
  ⟨z.re / square, -z.im / square⟩

/-- The magnitude. -/
def norm (z : Cartesian Float) : Float := Double.hypot z.re z.im

/-- The argument, between `-π` and `π`. -/
def arg (z : Cartesian Float) : Float := Float.atan2 z.im z.re

/-- Both parts are zero. -/
def isZero (z : Cartesian Float) : Bool := z.re == 0 && z.im == 0

/-- The number with the given magnitude and argument. -/
def ofPolar (magnitude angle : Float) : Cartesian Float :=
  ⟨magnitude * angle.cos, magnitude * angle.sin⟩

/-- The exponential.  An infinite or undefined real part with an imaginary
part that carries no direction is answered without going through the sine and
cosine of that part. -/
def exp (z : Cartesian Float) : Cartesian Float :=
  if z.re.isInf && z.re < 0 && !z.im.isFinite then ⟨0, 0⟩
  else if z.re.isInf && z.re > 0 && (z.im == 0 || !z.im.isFinite) then
    ⟨z.re, if z.im.isInf then Double.nan else z.im⟩
  else if z.re.isNaN && z.im == 0 then z
  else ofPolar z.re.exp z.im

/-- The principal natural logarithm. -/
def ln (z : Cartesian Float) : Cartesian Float := ⟨z.norm.log, z.arg⟩

/-- A real power, through polar form. -/
def powReal (z : Cartesian Float) (exponent : Float) : Cartesian Float :=
  if exponent == 0 then ⟨1, 0⟩
  else ofPolar (z.norm.pow exponent) (z.arg * exponent)

/-- A complex power, through the logarithm. -/
def powComplex (z exponent : Cartesian Float) : Cartesian Float :=
  if exponent.isZero then ⟨1, 0⟩ else (exponent.mulParts z.ln).exp

/-- The principal square root. -/
def sqrt (z : Cartesian Float) : Cartesian Float :=
  if z.im == 0 then
    if !Double.hasNegativeSign z.re then ⟨z.re.sqrt, z.im⟩
    else if Double.hasNegativeSign z.im then ⟨0, -(-z.re).sqrt⟩
    else ⟨0, (-z.re).sqrt⟩
  else if z.re == 0 then
    let root := (z.im.abs / 2).sqrt
    ⟨root, if Double.hasNegativeSign z.im then -root else root⟩
  else ofPolar z.norm.sqrt (z.arg / 2)

def sin (z : Cartesian Float) : Cartesian Float :=
  ⟨z.re.sin * z.im.cosh, z.re.cos * z.im.sinh⟩

def cos (z : Cartesian Float) : Cartesian Float :=
  ⟨z.re.cos * z.im.cosh, -z.re.sin * z.im.sinh⟩

def tan (z : Cartesian Float) : Cartesian Float :=
  let re := z.re + z.re
  let im := z.im + z.im
  unscale ⟨re.sin, im.sinh⟩ (re.cos + im.cosh)

def sinh (z : Cartesian Float) : Cartesian Float :=
  ⟨z.re.sinh * z.im.cos, z.re.cosh * z.im.sin⟩

def cosh (z : Cartesian Float) : Cartesian Float :=
  ⟨z.re.cosh * z.im.cos, z.re.sinh * z.im.sin⟩

def tanh (z : Cartesian Float) : Cartesian Float :=
  let re := z.re + z.re
  let im := z.im + z.im
  unscale ⟨re.sinh, im.sin⟩ (re.cosh + im.cos)

/-- The principal arc tangent, with its two poles at `±i`. -/
def atan (z : Cartesian Float) : Cartesian Float :=
  let unit : Cartesian Float := ⟨0, 1⟩
  let one : Cartesian Float := ⟨1, 0⟩
  if z == unit then ⟨0, Double.infinity⟩
  else if z == unit.negParts then ⟨0, -Double.infinity⟩
  else
    let turned := unit.mulParts z
    ((one.addParts turned).ln.subParts (one.subParts turned).ln).divParts ⟨0, 2⟩

/-- Repeated squaring over the binary digits of an exponent, least significant
first.  The accumulator is `none` until the first digit one. -/
def powDigits : List Bool → Cartesian Float → Option (Cartesian Float) → Cartesian Float
  | [], _, accumulated => accumulated.getD ⟨1, 0⟩
  | digit :: rest, base, accumulated =>
      let next :=
        if digit then
          match accumulated with
          | none => some base
          | some value => some (value.mulParts base)
        else accumulated
      powDigits rest (base.mulParts base) next

/-- An integer power by repeated squaring. -/
def powInt (z : Cartesian Float) (exponent : Int) : Cartesian Float :=
  let magnitude := exponent.natAbs
  let digits :=
    if magnitude = 0 then []
    else (List.range (Nat.log2 magnitude + 1)).map magnitude.testBit
  powDigits digits (if exponent < 0 then z.inverse else z) none

end Cartesian

end SymbolicAlgebra
