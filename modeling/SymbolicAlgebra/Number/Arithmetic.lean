import SymbolicAlgebra.Number.Basic

/-!
# Arithmetic on the numeric tower

Each operation is tried at the lowest tier that holds both operands and moves
on to the next shared tier when the exact computation leaves the bounded range.
The complex-double tier always answers, so the climb ends.  Exact division by
zero gives NaN.
-/

namespace SymbolicAlgebra

namespace Number

/-- One operation at each tier, on operands already widened to that tier. -/
structure TierOperation where
  integer : Int → Int → Option Number
  rational : Rat → Rat → Option Number
  real : Float → Float → Number
  complexInteger : Cartesian Int → Cartesian Int → Option Number
  complexRational : Cartesian Rat → Cartesian Rat → Option Number
  complexReal : Cartesian Float → Cartesian Float → Number

namespace TierOperation

/-- The operation at one tier; it fails when an operand does not widen to the
tier or when the exact computation leaves the range. -/
def at? (operation : TierOperation) (left right : Number) : Tier → Option Number
  | .integer => do operation.integer (← left.asInt?) (← right.asInt?)
  | .rational => do operation.rational (← left.toRatio?) (← right.toRatio?)
  | .real => do some (operation.real (← left.toFloat?) (← right.toFloat?))
  | .complexInteger => do
      operation.complexInteger (← left.toComplexInt?) (← right.toComplexInt?)
  | .complexRational => do
      operation.complexRational (← left.toComplexRatio?) (← right.toComplexRatio?)
  | _ => some (operation.complexReal left.toComplexFloat right.toComplexFloat)

/-- The operation at the first tier where it succeeds. -/
def run (operation : TierOperation) (left right : Number) : Number :=
  climb left right (operation.at? left right)

end TierOperation

/-- The product of two complex numbers with integer parts. -/
def mulComplexInt? (z w : Cartesian Int) : Option (Cartesian Int) := do
  let re ← checked ((← checked (z.re * w.re)) - (← checked (z.im * w.im)))
  let im ← checked ((← checked (z.re * w.im)) + (← checked (z.im * w.re)))
  pure ⟨re, im⟩

/-- The squared magnitude of a complex number with integer parts. -/
def normSquaredInt? (z : Cartesian Int) : Option Int := do
  checked ((← checked (z.re * z.re)) + (← checked (z.im * z.im)))

/-- The squared magnitude of a complex number with rational parts. -/
def normSquaredRatio? (z : Cartesian Rat) : Option Rat := do
  Ratio.add? (← Ratio.mul? z.re z.re) (← Ratio.mul? z.im z.im)

def addition : TierOperation where
  integer a b := (checked (a + b)).map .int
  rational a b := (Ratio.add? a b).map ofRatio
  real a b := .real (a + b)
  complexInteger z w := do
    pure (ofComplexInt (← checked (z.re + w.re)) (← checked (z.im + w.im)))
  complexRational z w := do
    pure (ofComplexRatio (← Ratio.add? z.re w.re) (← Ratio.add? z.im w.im))
  complexReal z w := ofComplexFloat (z.addParts w)

def subtraction : TierOperation where
  integer a b := (checked (a - b)).map .int
  rational a b := (Ratio.sub? a b).map ofRatio
  real a b := .real (a - b)
  complexInteger z w := do
    pure (ofComplexInt (← checked (z.re - w.re)) (← checked (z.im - w.im)))
  complexRational z w := do
    pure (ofComplexRatio (← Ratio.sub? z.re w.re) (← Ratio.sub? z.im w.im))
  complexReal z w := ofComplexFloat (z.subParts w)

def multiplication : TierOperation where
  integer a b := (checked (a * b)).map .int
  rational a b := (Ratio.mul? a b).map ofRatio
  real a b := .real (a * b)
  complexInteger z w := (mulComplexInt? z w).map fun product =>
    ofComplexInt product.re product.im
  complexRational z w := do
    let re ← Ratio.sub? (← Ratio.mul? z.re w.re) (← Ratio.mul? z.im w.im)
    let im ← Ratio.add? (← Ratio.mul? z.re w.im) (← Ratio.mul? z.im w.re)
    pure (ofComplexRatio re im)
  complexReal z w := ofComplexFloat (z.mulParts w)

def division : TierOperation where
  integer a b :=
    if b = 0 then some nan else (Ratio.ofInts? a b).map ofRatio
  rational a b :=
    if b = 0 then some nan else (Ratio.div? a b).map ofRatio
  real a b := if b == 0 then nan else .real (a / b)
  complexInteger z w := do
    let square ← normSquaredInt? w
    if square = 0 then pure nan
    else
      let re ← checked ((← checked (z.re * w.re)) + (← checked (z.im * w.im)))
      let im ← checked ((← checked (z.im * w.re)) - (← checked (z.re * w.im)))
      pure (ofComplexRatio (← Ratio.ofInts? re square) (← Ratio.ofInts? im square))
  complexRational z w := do
    let square ← normSquaredRatio? w
    if square = 0 then pure nan
    else
      let re ← Ratio.add? (← Ratio.mul? z.re w.re) (← Ratio.mul? z.im w.im)
      let im ← Ratio.sub? (← Ratio.mul? z.im w.re) (← Ratio.mul? z.re w.im)
      pure (ofComplexRatio (← Ratio.div? re square) (← Ratio.div? im square))
  complexReal z w :=
    if w.isZero then nan else ofComplexFloat (z.divParts w)

def add (left right : Number) : Number := addition.run left right

def sub (left right : Number) : Number := subtraction.run left right

def mul (left right : Number) : Number := multiplication.run left right

/-- The quotient; division by zero gives NaN at every tier. -/
def div (left right : Number) : Number := division.run left right

/-- The negated number, in double precision when it leaves the range. -/
def neg : Number → Number
  | .int value =>
      match checked (-value) with
      | some negated => .int negated
      | none => .real (-Float.ofInt value)
  | .rational value =>
      match Ratio.neg? value with
      | some negated => .rational negated
      | none => .real (-Ratio.toFloat value)
  | .real value => .real (-value)
  | number@(.complexInt value) =>
      match checked (-value.re), checked (-value.im) with
      | some re, some im => ofComplexInt re im
      | _, _ => ofComplexFloat number.toComplexFloat.negParts
  | number@(.complexRational value) =>
      match Ratio.neg? value.re, Ratio.neg? value.im with
      | some re, some im => ofComplexRatio re im
      | _, _ => ofComplexFloat number.toComplexFloat.negParts
  | .complexReal value => .complexReal value.negParts

/-- The complex conjugate; real numbers are their own. -/
def conj : Number → Number
  | number@(.complexInt value) =>
      match checked (-value.im) with
      | some im => ofComplexInt value.re im
      | none => ofComplexFloat number.toComplexFloat.conj
  | number@(.complexRational value) =>
      match Ratio.neg? value.im with
      | some im => ofComplexRatio value.re im
      | none => ofComplexFloat number.toComplexFloat.conj
  | .complexReal value => .complexReal value.conj
  | number => number

end Number

end SymbolicAlgebra
