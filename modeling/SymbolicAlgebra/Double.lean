/-!
# Double-precision numbers

Named constants, the decomposition of a finite double into mantissa and
exponent, and the correctly rounded hypotenuse.
-/

namespace SymbolicAlgebra

namespace Double

/-- The quiet not-a-number value. -/
def nan : Float := Float.ofBits 0x7ff8000000000000

/-- Positive infinity. -/
def infinity : Float := Float.ofBits 0x7ff0000000000000

/-- The ratio of a circle's circumference to its diameter. -/
def pi : Float := Float.ofBits 0x400921fb54442d18

/-- The base of the natural logarithm. -/
def euler : Float := Float.ofBits 0x4005bf0a8b145769

/-- The sign bit is set; negative zero counts as negative. -/
def hasNegativeSign (value : Float) : Bool := value.toBits >>> 63 == 1

/-- The value has no fractional part.  Infinities and NaN have none to test
and answer `false`. -/
def isIntegral (value : Float) : Bool :=
  value.isFinite && value == value.floor

/-- A finite double `±mantissa * 2 ^ exponent`, sign aside. -/
structure Parts where
  mantissa : Nat
  exponent : Int

/-- The mantissa and binary exponent of the magnitude of a finite double. -/
def parts (value : Float) : Parts :=
  let bits := value.toBits.toNat
  let fraction : Nat := bits % Nat.pow 2 52
  let field : Nat := bits / Nat.pow 2 52 % Nat.pow 2 11
  if field = 0 then ⟨fraction, -1074⟩
  else ⟨fraction + Nat.pow 2 52, (field : Int) - 1075⟩

/-- Number of extra mantissa bits computed by `hypot` before rounding. -/
def hypotGuard : Nat := 60

/-- Length of the hypotenuse.  The sum of the squares is formed exactly and
its root is taken with guard digits and a final sticky bit, so the result is
rounded once. -/
def hypot (x y : Float) : Float :=
  if x.isInf || y.isInf then infinity
  else if x.isNaN || y.isNaN then nan
  else
    let first := parts x
    let second := parts y
    let unit := min first.exponent second.exponent
    let scaled (part : Parts) : Nat :=
      part.mantissa * Nat.pow 2 (part.exponent - unit).toNat
    let square := scaled first * scaled first + scaled second * scaled second
    if square = 0 then 0
    else
      let shift := hypotGuard - Nat.log2 square / 2
      let radicand := square * Nat.pow 4 shift
      let root := Nat.sqrt radicand
      let surplus := Nat.log2 root - hypotGuard
      let kept := root / Nat.pow 2 surplus
      let whole := kept * Nat.pow 2 surplus
      let sticky := if whole * whole = radicand then 0 else 1
      (Float.ofNat (2 * kept + sticky)).scaleB (unit - shift + surplus - 1)

end Double

end SymbolicAlgebra
