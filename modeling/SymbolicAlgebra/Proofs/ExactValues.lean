import Mathlib.Data.Rat.Sqrt
import SymbolicAlgebra.Function.Catalogue
import SymbolicAlgebra.Proofs.Denotation
import SymbolicAlgebra.Proofs.ExactPowers
import SymbolicAlgebra.Proofs.Soundness.Engine

/-!
# Exact values

A tree without variables has an exact value, a Gaussian rational, where no divisor is
zero and roots are taken of the squares of rationals and their negatives only.  These
are the roots that come out exact, and they are principal ones: a square root lies to
the right of the imaginary axis or on its upper half, where no two numbers have the same
square.

The rules of arithmetic keep exact values, since square roots and magnitudes are among
the functions that a reading may give values to.
-/

namespace SymbolicAlgebra

/-! ## Principal square roots -/

/-- The values of the principal square root. -/
def IsPrincipal (value : GaussianRational) : Prop := 0 < value.re ∨ value.re = 0 ∧ 0 ≤ value.im

instance (value : GaussianRational) : Decidable (IsPrincipal value) :=
  inferInstanceAs (Decidable (0 < value.re ∨ value.re = 0 ∧ 0 ≤ value.im))

/-- The principal square root of a real number, where it is exact. -/
def principalRoot? (value : GaussianRational) : Option GaussianRational :=
  let root := Rat.sqrt |value.re|
  if value.im = 0 ∧ root * root = |value.re| then
    some (if 0 ≤ value.re then ⟨root, 0⟩ else ⟨0, root⟩)
  else none

/-- The magnitude of a real number. -/
def magnitude? (value : GaussianRational) : Option GaussianRational :=
  if value.im = 0 then some ⟨|value.re|, 0⟩ else none

/-- The exact values of functions. -/
def UnaryFunction.exactValue? : UnaryFunction → GaussianRational → Option GaussianRational
  | .sqrt => principalRoot?
  | .abs => magnitude?
  | _ => fun _ => none

section Roots

variable {value root other : GaussianRational}

/-- A number has just one principal square root. -/
theorem IsPrincipal.eq_of_square (principal : IsPrincipal root) (otherPrincipal : IsPrincipal other)
    (same : root * root = other * other) : root = other := by
  rcases mul_self_eq_mul_self_iff.mp same with equal | opposite
  · exact equal
  · -- Of two opposite numbers only zero can be principal on both sides.
    have re : root.re = -other.re := by rw [opposite]; rfl
    have im : root.im = -other.im := by rw [opposite]; rfl
    have reZero : other.re = 0 := by
      rcases principal with positive | ⟨zero, _⟩ <;>
        rcases otherPrincipal with otherPositive | ⟨otherZero, _⟩ <;> linarith
    have imZero : other.im = 0 := by
      rcases principal with positive | ⟨_, above⟩ <;>
        rcases otherPrincipal with otherPositive | ⟨_, otherAbove⟩ <;> linarith
    exact QuadraticAlgebra.ext (by rw [re, reZero, neg_zero]) (by rw [im, imZero, neg_zero])

theorem principalRoot?_eq_some (found : principalRoot? value = some root) :
    IsPrincipal root ∧ root * root = value := by
  simp only [principalRoot?, Option.ite_none_right_eq_some, Option.some.injEq] at found
  obtain ⟨⟨real, square⟩, rfl⟩ := found
  have nonnegative : 0 ≤ Rat.sqrt |value.re| := Rat.sqrt_nonneg _
  split
  · rename_i above
    refine ⟨?_, ?_⟩
    · rcases nonnegative.lt_or_eq with positive | zero
      · exact .inl positive
      · exact .inr ⟨zero.symm, le_refl 0⟩
    · rw [abs_of_nonneg above] at square ⊢
      exact QuadraticAlgebra.ext (by simp [square]) (by simp [real])
  · rename_i below
    refine ⟨.inr ⟨rfl, nonnegative⟩, ?_⟩
    rw [abs_of_neg (not_le.mp below)] at square ⊢
    exact QuadraticAlgebra.ext (by simp [square]) (by simp [real])

/-- The root of a real number from that of its magnitude. -/
theorem principalRoot?_real {value root : ℚ} (nonnegative : 0 ≤ root)
    (square : root * root = |value|) : principalRoot? ⟨value, 0⟩ =
      some (if 0 ≤ value then ⟨root, 0⟩ else ⟨0, root⟩) := by
  have sqrt : Rat.sqrt |value| = root := by
    rw [← square, Rat.sqrt_eq, abs_of_nonneg nonnegative]
  rw [principalRoot?]
  simp only [sqrt, square, and_self, if_true]

theorem magnitude?_square (found : magnitude? value = some root) : root * root = value * value := by
  simp only [magnitude?, Option.ite_none_right_eq_some, Option.some.injEq] at found
  obtain ⟨real, rfl⟩ := found
  exact QuadraticAlgebra.ext (by simp [real]) (by simp [real])

end Roots

/-! ## Closed trees -/

instance : DecidablePred Number.Canonical
  | .int value => inferInstanceAs (Decidable (InRange value))
  | .rational value => inferInstanceAs (Decidable (Ratio.InRange value ∧ value.den ≠ 1))
  | .real _ => .isTrue trivial
  | .complexInt value =>
      inferInstanceAs (Decidable (InRange value.re ∧ InRange value.im ∧ value.im ≠ 0))
  | .complexRational value =>
      inferInstanceAs (Decidable (Ratio.InRange value.re ∧ Ratio.InRange value.im ∧ value.im ≠ 0 ∧
        ¬ (value.re.den = 1 ∧ value.im.den = 1)))
  | .complexReal value => inferInstanceAs (Decidable ((value.im == 0) = false))

namespace Expr

/-- The exact value of a tree without variables. -/
def exactValue? : Expr → Option GaussianRational
  | .number value _ => if value.Canonical then value.value? else none
  | .unary .neg operand _ => do return -(← operand.exactValue?)
  | .arith .add left right _ => do return (← left.exactValue?) + (← right.exactValue?)
  | .arith .sub left right _ => do return (← left.exactValue?) - (← right.exactValue?)
  | .arith .mul left right _ => do return (← left.exactValue?) * (← right.exactValue?)
  | .arith .div left right _ => do
      return (← left.exactValue?) * (← inverse? (← right.exactValue?))
  | .arith .pow base exponent _ => do
      power? (← base.exactValue?) (← exponent.asInt?.filter (InRange ·))
  | .call function argument _ => do function.exactValue? (← argument.exactValue?)
  | _ => none

end Expr

/-- The Gaussian rationals, with the exact values of functions and the given values of
variables. -/
def Reading.exact (valuation : String → Option GaussianRational) : Reading GaussianRational where
  valuation := valuation
  inexact := False
  allowed step := step.staysInRange = true
  single := False.elim
  inRange _ := Bool.false_ne_true
  defined _ _ _ _ := .inr inferInstance
  complex := some (.id GaussianRational)
  call := UnaryFunction.exactValue?

section Closed

variable {valuation : String → Option GaussianRational} {tree : Expr} {number : Number}
  {value : GaussianRational}

theorem Reading.Reads.value?_eq (reads : (Reading.exact valuation).Reads number value) :
    number.Bounded ∧ number.value? = some value := by
  obtain ⟨_, bounded, denotes, z, same⟩ := reads.gaussian (reads.isExact id)
  obtain ⟨rfl, rfl⟩ := Prod.mk.inj same
  exact ⟨bounded, denotes⟩

theorem Number.Represents.reads (represents : number.Represents value) :
    (Reading.exact valuation).Reads number value :=
  .inr (.inl ⟨_, rfl, value, represents, rfl⟩)

/-- The exact value is the meaning, whatever the values of variables are. -/
theorem means_of_exactValue? (exact : tree.exactValue? = some value) :
    Means (.exact valuation) tree value := by
  fun_induction Expr.exactValue? tree generalizing value with
  | case1 number mark canonical =>
      exact .number (Number.Represents.reads ⟨canonical, exact⟩)
  | case3 operand mark ih =>
      simp only [Option.bind_eq_bind, Option.bind_eq_some_iff, Option.pure_def,
        Option.some.injEq] at exact
      obtain ⟨first, operandValue, rfl⟩ := exact
      exact .neg (ih operandValue)
  | case4 left right mark leftIH rightIH =>
      simp only [Option.bind_eq_bind, Option.bind_eq_some_iff, Option.pure_def,
        Option.some.injEq] at exact
      obtain ⟨first, leftValue, second, rightValue, rfl⟩ := exact
      exact .add (leftIH leftValue) (rightIH rightValue)
  | case5 left right mark leftIH rightIH =>
      simp only [Option.bind_eq_bind, Option.bind_eq_some_iff, Option.pure_def,
        Option.some.injEq] at exact
      obtain ⟨first, leftValue, second, rightValue, rfl⟩ := exact
      exact .sub (leftIH leftValue) (rightIH rightValue)
  | case6 left right mark leftIH rightIH =>
      simp only [Option.bind_eq_bind, Option.bind_eq_some_iff, Option.pure_def,
        Option.some.injEq] at exact
      obtain ⟨first, leftValue, second, rightValue, rfl⟩ := exact
      exact .mul (leftIH leftValue) (rightIH rightValue)
  | case7 left right mark leftIH rightIH =>
      simp only [Option.bind_eq_bind, Option.bind_eq_some_iff, Option.pure_def,
        Option.some.injEq, inverse?_eq_some_iff] at exact
      obtain ⟨first, leftValue, second, rightValue, _, ⟨nonzero, rfl⟩, rfl⟩ := exact
      exact .div (leftIH leftValue) (rightIH rightValue) (IsUnit.mk0 second nonzero)
        (inv_mul_cancel_right₀ nonzero first)
  | case8 base exponent mark ih =>
      simp only [Option.bind_eq_bind, Option.bind_eq_some_iff, Option.filter_eq_some_iff,
        decide_eq_true_eq, power?_eq_some_iff] at exact
      obtain ⟨first, baseValue, n, ⟨view, inRange⟩, power⟩ := exact
      exact Means.pow_iff.mpr ⟨first, n, ih baseValue, ⟨inRange, Expr.eq_of_asInt? view⟩, power⟩
  | case9 function argument mark ih =>
      simp only [Option.bind_eq_bind, Option.bind_eq_some_iff] at exact
      obtain ⟨first, argumentValue, found⟩ := exact
      exact .call (ih argumentValue) found
  | case2 | case10 => contradiction

end Closed

end SymbolicAlgebra
