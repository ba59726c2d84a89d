import Mathlib.Data.Option.Basic
import Mathlib.Data.Rat.Defs
import SymbolicAlgebra.Number.Arithmetic

/-!
# The order of operands

Sums and products of numbers do not depend on the order of their operands.  This is about
more than values: which intermediate integer leaves the range decides whether a result is
exact, and so the checks that are made for one order have to be those made for the other.
They are, at every tier.  The least common denominator and the factors that cancel
crosswise are symmetric in the two fractions, and where several integers are checked, the
order of the checks does not matter, since each refusal refuses the whole computation.

Doubles are added and multiplied symmetrically as well, and both orders climb through the
same tiers.  So the two orders give the same number, exact or not.
-/

namespace SymbolicAlgebra

/-! ## Doubles -/

namespace Double

open Float.Model Float.Model.UnpackedFloat

theorem unpacked_add_comm (spec : Format) (x y : UnpackedFloat) :
    UnpackedFloat.add spec x y = UnpackedFloat.add spec y x := by
  cases x with
  | notANumber => cases y <;> rfl
  | infinity sign =>
      cases y with
      | infinity other => cases sign <;> cases other <;> rfl
      | _ => rfl
  | zero sign =>
      cases y with
      | zero other => cases sign <;> cases other <;> rfl
      | _ => rfl
  | finite sign mantissa exponent positive =>
      cases y with
      | finite other otherMantissa otherExponent otherPositive =>
          -- Both mantissas are brought to the smaller of the two exponents.
          let shared := min exponent otherExponent
          change normalize spec (sign.apply (decreaseExponent mantissa exponent shared).1 +
              other.apply (decreaseExponent otherMantissa otherExponent shared).1) shared
                .positive =
            normalize spec (other.apply (decreaseExponent otherMantissa otherExponent _).1 +
              sign.apply (decreaseExponent mantissa exponent _).1) (min otherExponent exponent)
              .positive
          rw [Int.min_comm otherExponent exponent, Int.add_comm]
      | _ => rfl

theorem unpacked_mul_comm (spec : Format) (x y : UnpackedFloat) :
    UnpackedFloat.mul spec x y = UnpackedFloat.mul spec y x := by
  have signs (sign other : Sign) : sign * other = other * sign := by
    cases sign <;> cases other <;> rfl
  cases x with
  | notANumber => cases y <;> rfl
  | infinity sign =>
      cases y with
      | notANumber | zero => rfl
      | infinity other | finite other => exact congrArg UnpackedFloat.infinity (signs sign other)
  | zero sign =>
      cases y with
      | notANumber | infinity => rfl
      | zero other | finite other => exact congrArg UnpackedFloat.zero (signs sign other)
  | finite sign mantissa exponent positive =>
      cases y with
      | notANumber => rfl
      | infinity other => exact congrArg UnpackedFloat.infinity (signs sign other)
      | zero other => exact congrArg UnpackedFloat.zero (signs sign other)
      | finite other otherMantissa otherExponent otherPositive =>
          change roundWithAccuracy spec (sign * other) (mantissa * otherMantissa)
              (exponent + otherExponent) .exact =
            roundWithAccuracy spec (other * sign) (otherMantissa * mantissa)
              (otherExponent + exponent) .exact
          rw [signs sign, Nat.mul_comm mantissa, Int.add_comm exponent]

protected theorem add_comm (x y : Float) : x + y = y + x :=
  congrArg (fun sum => Float.ofModel (Float.Model.pack sum)) (unpacked_add_comm _ _ _)

protected theorem mul_comm (x y : Float) : x * y = y * x :=
  congrArg (fun product => Float.ofModel (Float.Model.pack product)) (unpacked_mul_comm _ _ _)

end Double

/-! ## Checked operations -/

namespace Ratio

variable (left right : Rat)

/-- The least common denominator as it is computed. -/
theorem commonDenominator_comm :
    right.den / Nat.gcd right.den left.den * left.den =
      left.den / Nat.gcd left.den right.den * right.den := by
  rw [Nat.gcd_comm right.den, Nat.div_mul_right_comm (Nat.gcd_dvd_right left.den right.den),
    Nat.div_mul_right_comm (Nat.gcd_dvd_left left.den right.den), Nat.mul_comm]

theorem overCommonDenominator?_comm :
    overCommonDenominator? right left = (overCommonDenominator? left right).map Prod.swap := by
  have common : ((right.den / Nat.gcd right.den left.den : Nat) : Int) * left.den =
      ((left.den / Nat.gcd left.den right.den : Nat) : Int) * right.den := by
    exact_mod_cast commonDenominator_comm left right
  simp only [overCommonDenominator?, common, Option.bind_eq_bind, Option.map_bind]
  congr 1
  funext common
  rw [Function.comp_apply]
  cases checked (common / left.den * left.num) <;>
    cases checked (common / right.den * right.num) <;> rfl

theorem add?_comm : add? left right = add? right left := by
  rw [add?, add?, overCommonDenominator?_comm left right]
  cases overCommonDenominator? left right with
  | none => rfl
  | some numerators =>
      simp [Int.add_comm numerators.2, Rat.add_comm right]

theorem mul?_comm : mul? left right = mul? right left := by
  simp only [mul?, Nat.gcd_comm right.den, Nat.gcd_comm right.num.natAbs,
    Int.mul_comm (right.num / _), Int.mul_comm ((right.den / _ : Nat) : Int), Rat.mul_comm right]

end Ratio

/-! ## The climb -/

theorem Tier.join_comm (left right : Tier) : left.join right = right.join left := by
  cases left <;> cases right <;> rfl

namespace Number

theorem sharedTiers_comm (left right : Number) :
    sharedTiers left right = sharedTiers right left := by
  simp only [sharedTiers, Tier.join_comm left.tier, Bool.and_comm (left.fits _)]

namespace TierOperation

/-- At no tier does the operation depend on the order of the operands. -/
structure Commutes (operation : TierOperation) : Prop where
  integer : ∀ a b, operation.integer a b = operation.integer b a
  rational : ∀ a b, operation.rational a b = operation.rational b a
  real : ∀ a b, operation.real a b = operation.real b a
  complexInteger : ∀ z w, operation.complexInteger z w = operation.complexInteger w z
  complexRational : ∀ z w, operation.complexRational z w = operation.complexRational w z
  complexReal : ∀ z w, operation.complexReal z w = operation.complexReal w z

variable {operation : TierOperation}

/-- Views of both operands are taken in either order. -/
theorem bind_views_comm {Part : Type} {compute : Part → Part → Option Number}
    (commutes : ∀ x y, compute x y = compute y x) (left right : Option Part) :
    (left.bind fun x => right.bind fun y => compute x y) =
      right.bind fun x => left.bind fun y => compute x y := by
  rw [Option.bind_comm]
  simp only [commutes]

theorem Commutes.at?_comm (commutes : operation.Commutes) (left right : Number) (tier : Tier) :
    operation.at? left right tier = operation.at? right left tier := by
  cases tier with
  | integer => exact bind_views_comm commutes.integer _ _
  | rational => exact bind_views_comm commutes.rational _ _
  | real => exact bind_views_comm (fun x y => congrArg some (commutes.real x y)) _ _
  | complexInteger => exact bind_views_comm commutes.complexInteger _ _
  | complexRational => exact bind_views_comm commutes.complexRational _ _
  | boolean | complexReal | nonNumeric => exact congrArg some (commutes.complexReal _ _)

/-- Both orders climb through the same tiers and stop at the same one. -/
theorem Commutes.run_comm (commutes : operation.Commutes) (left right : Number) :
    operation.run left right = operation.run right left := by
  rw [run, run, climb, climb, sharedTiers_comm, funext (commutes.at?_comm left right)]

end TierOperation

/-! ## Sums and products -/

theorem addition_commutes : addition.Commutes where
  integer a b := by simp only [addition, Int.add_comm]
  rational a b := by simp only [addition, Ratio.add?_comm a]
  real a b := by simp only [addition, Double.add_comm a]
  complexInteger z w := by simp only [addition, Int.add_comm z.re, Int.add_comm z.im]
  complexRational z w := by simp only [addition, Ratio.add?_comm z.re, Ratio.add?_comm z.im]
  complexReal z w := by
    simp only [addition, Cartesian.addParts, Double.add_comm z.re, Double.add_comm z.im]

/-- The two products of the imaginary part change places. -/
theorem mulComplexInt?_comm (z w : Cartesian Int) : mulComplexInt? z w = mulComplexInt? w z := by
  simp only [mulComplexInt?, Option.bind_eq_bind, Int.mul_comm w.re, Int.mul_comm w.im]
  simp only [Option.bind_comm (checked (z.im * w.re)), Int.add_comm]

theorem multiplication_commutes : multiplication.Commutes where
  integer a b := by simp only [multiplication, Int.mul_comm]
  rational a b := by simp only [multiplication, Ratio.mul?_comm a]
  real a b := by simp only [multiplication, Double.mul_comm a]
  complexInteger z w := by simp only [multiplication, mulComplexInt?_comm z]
  complexRational z w := by
    simp only [multiplication, Option.bind_eq_bind, Ratio.mul?_comm w.re, Ratio.mul?_comm w.im]
    simp only [Option.bind_comm (Ratio.mul? z.im w.re), Ratio.add?_comm]
  complexReal z w := by
    simp only [multiplication, Cartesian.mulParts, Double.mul_comm w.re, Double.mul_comm w.im,
      Double.add_comm (z.re * w.im)]

/-- The sum and the product of two numbers do not depend on the order of the operands.  In
particular they are exact in one order exactly when they are in the other. -/
theorem sum_and_product_commute (left right : Number) :
    left.add right = right.add left ∧ left.mul right = right.mul left :=
  ⟨addition_commutes.run_comm left right, multiplication_commutes.run_comm left right⟩

end Number

end SymbolicAlgebra
