import SymbolicAlgebra.Controller
import SymbolicAlgebra.Decimal.Layout

/-!
# Pauses

A pause waits for a number of seconds and yields true.  Under a controller it
can be interrupted; without one its length is limited, since nothing could end
it.  Waiting itself is left to the outside: what a pause yields depends only on
its length, on the controller and on whether one of the looks at the stop flag,
which it takes as long as it lasts, finds it set.
-/

namespace SymbolicAlgebra

/-- A length of time in nanoseconds. -/
structure Duration where
  nanos : Nat
deriving DecidableEq

namespace Duration

/-- The number of nanoseconds in a second. -/
def nanosPerSecond : Nat := 1000000000

/-- A quotient rounded to the nearest natural number, halves to the even one. -/
def roundHalfEven (numerator denominator : Nat) : Nat :=
  let quotient := numerator / denominator
  let twice := 2 * (numerator % denominator)
  if twice < denominator then quotient
  else if twice > denominator then quotient + 1
  else quotient + quotient % 2

/-- A number of seconds to the nearest nanosecond.  Negative and infinite
numbers, NaN and numbers from `2 ^ 64` on are no lengths of time. -/
def ofSeconds? (seconds : Float) : Option Duration :=
  if seconds.isNaN || seconds < 0 || seconds.isInf then none
  else
    let part := Double.parts seconds
    let scaled := part.mantissa * nanosPerSecond
    let nanos :=
      if 0 ≤ part.exponent then scaled * Nat.pow 2 part.exponent.toNat
      else roundHalfEven scaled (Nat.pow 2 (-part.exponent).toNat)
    if nanos < Nat.pow 2 64 * nanosPerSecond then some ⟨nanos⟩ else none

/-- The length in seconds, as a double. -/
def toSeconds (duration : Duration) : Float :=
  Float.ofNat (duration.nanos / nanosPerSecond) +
    Float.ofNat (duration.nanos % nanosPerSecond) / Float.ofNat nanosPerSecond

/-- The longest pause without a controller. -/
def uncontrolledLimit : Duration := ⟨3600 * nanosPerSecond⟩

end Duration

/-- The outcome of a pause of a given number of seconds. -/
def pauseFor (controller : Option Controller) (interrupted : Bool) (seconds : Expr) :
    Traced Expr :=
  if seconds.isError then pure seconds
  else
    match (seconds.asNumber?.bind Number.toFloat?).bind Duration.ofSeconds? with
    | none => Expr.make (.typeMismatch "sleep expects a non-negative number of seconds")
    | some duration =>
        match controller with
        | some _ =>
            if interrupted then do
              Traced.step .pauseInterrupted
              Expr.make (.cancelled "Interrupted")
            else Expr.make (.bool true)
        | none =>
            if duration.nanos > Duration.uncontrolledLimit.nanos then
              Expr.make (.outOfBounds ("sleep of " ++ Decimal.plain duration.toSeconds ++
                " s needs a controller to be interrupted"))
            else Expr.make (.bool true)

end SymbolicAlgebra
