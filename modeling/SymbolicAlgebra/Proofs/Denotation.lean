import SymbolicAlgebra.Expr.Make
import SymbolicAlgebra.Proofs.Reading

/-!
# The denotation of rational functions

Rational functions are the trees over integers, fractions and variables built by
the four operations, negation and powers by an integer literal.  Their
denotation in a ring with inverses is partial: it is undefined where a divisor
or the base of a negative power has no inverse, and where a variable has no
value.  In the field of rationals it is what the reading of the rules of
arithmetic tells.
-/

namespace SymbolicAlgebra

namespace Number

/-- Integers and fractions whose parts are in range. -/
def isFraction : Number → Bool
  | .int value => InRange value
  | .rational value => Ratio.InRange value
  | _ => false

theorem isFraction_iff {number : Number} :
    number.isFraction = true ↔ ∃ value, number.IsFraction value := by
  cases number <;> simp [isFraction, IsFraction, toRatio?, Bounded]

end Number

section Partial

variable {K : Type} [CommRing K] [Inv K] [DecidableEq K]

/-- The inverse of an element that has one. -/
def inverse? (value : K) : Option K := if value * value⁻¹ = 1 then some value⁻¹ else none

/-- The power by an integer; a negative one needs an inverse of the base. -/
def power? (base : K) (exponent : Int) : Option K :=
  if 0 ≤ exponent then some (base ^ exponent.toNat)
  else (inverse? base).map (· ^ exponent.natAbs)

end Partial

namespace Expr

/-- The trees of rational functions. -/
def isRationalFunction : Expr → Bool
  | .number value _ => value.isFraction
  | .var _ _ => true
  | .unary .neg operand _ => operand.isRationalFunction
  | .arith .pow base exponent _ => base.isRationalFunction && exponent.asInt?.any (InRange ·)
  | .arith _ left right _ => left.isRationalFunction && right.isRationalFunction
  | _ => false

/-- The value of a rational function where the variables have the given values. -/
def denote {K : Type} [CommRing K] [Inv K] [DecidableEq K] [Algebra ℚ K]
    (valuation : String → Option K) : Expr → Option K
  | .number value _ => value.toRatio?.map (algebraMap ℚ K)
  | .var name _ => valuation name
  | .unary .neg operand _ => do return -(← operand.denote valuation)
  | .arith .add left right _ => do return (← left.denote valuation) + (← right.denote valuation)
  | .arith .sub left right _ => do return (← left.denote valuation) - (← right.denote valuation)
  | .arith .mul left right _ => do return (← left.denote valuation) * (← right.denote valuation)
  | .arith .div left right _ => do
      return (← left.denote valuation) * (← inverse? (← right.denote valuation))
  | .arith .pow base exponent _ => do power? (← base.denote valuation) (← exponent.asInt?)
  | _ => none

end Expr

namespace Step

/-- The step does not leave the range of exact numbers. -/
def staysInRange : Step → Bool
  | inexact _ => false
  | _ => true

/-- The step does not leave the exact numbers, also for want of a value. -/
def staysExact : Step → Bool
  | inexact _ | undefined _ _ _ => false
  | _ => true

end Step

/-- The rationals, with the given values of variables. -/
def Reading.rationals (valuation : String → Option ℚ) : Reading ℚ where
  valuation := valuation
  inexact := False
  allowed step := step.staysInRange = true
  single := False.elim
  inRange _ := Bool.false_ne_true
  defined _ _ _ _ := .inr inferInstance

section Field

variable {F : Type} [Field F] [DecidableEq F] {base value : F}

theorem inverse?_eq_some_iff : inverse? base = some value ↔ base ≠ 0 ∧ base⁻¹ = value := by
  unfold inverse?
  by_cases zero : base = 0
  · simp [zero]
  · simp [zero]

theorem power?_eq_some_iff {exponent : Int} :
    power? base exponent = some value ↔ IsPower base exponent value := by
  rw [isPower_iff]
  unfold power?
  split
  · rename_i nonnegative
    have natural : base ^ exponent.toNat = base ^ exponent := by
      rw [← zpow_natCast, Int.toNat_of_nonneg nonnegative]
    simp [natural, nonnegative]
  · rename_i negative
    have inverted : base⁻¹ ^ exponent.natAbs = base ^ exponent := by
      rw [inv_pow, ← zpow_natCast, ← zpow_neg]
      congr 1
      omega
    simp only [Option.map_eq_some_iff, inverse?_eq_some_iff, negative, or_false]
    constructor
    · rintro ⟨_, ⟨nonzero, rfl⟩, rfl⟩
      exact ⟨nonzero, inverted.symm⟩
    · rintro ⟨nonzero, rfl⟩
      exact ⟨_, ⟨nonzero, rfl⟩, inverted⟩

end Field

section Rationals

variable {valuation : String → Option ℚ} {tree : Expr} {value : ℚ}

theorem Reading.reads_rationals_iff {number : Number} :
    (Reading.rationals valuation).Reads number value ↔ number.IsFraction value := by
  constructor
  · rintro (⟨fraction, isFraction, rfl⟩ | ⟨_, impossible, _⟩ | ⟨impossible, _⟩)
    · exact isFraction
    · cases impossible
    · exact impossible.elim
  · intro isFraction
    exact .inl ⟨value, isFraction, rfl⟩

theorem Means.isRationalFunction (means : Means (.rationals valuation) tree value) :
    tree.isRationalFunction = true := by
  induction means with
  | number reads => exact Number.isFraction_iff.mpr ⟨_, Reading.reads_rationals_iff.mp reads⟩
  | var _ => rfl
  | neg _ ih => exact ih
  | add _ _ leftIH rightIH => exact Bool.and_eq_true_iff.mpr ⟨leftIH, rightIH⟩
  | sub _ _ leftIH rightIH => exact Bool.and_eq_true_iff.mpr ⟨leftIH, rightIH⟩
  | mul _ _ leftIH rightIH => exact Bool.and_eq_true_iff.mpr ⟨leftIH, rightIH⟩
  | div _ _ _ _ leftIH rightIH => exact Bool.and_eq_true_iff.mpr ⟨leftIH, rightIH⟩
  | pow _ inRange _ ih => exact Bool.and_eq_true_iff.mpr ⟨ih, decide_eq_true inRange⟩
  | call _ found _ => cases found

theorem Means.denote (means : Means (.rationals valuation) tree value) :
    tree.denote valuation = some value := by
  induction means with
  | number reads =>
      have view := (Reading.reads_rationals_iff.mp reads).1
      simp [Expr.denote, view]
  | var found => exact found
  | neg _ ih => simp [Expr.denote, ih]
  | add _ _ leftIH rightIH => simp [Expr.denote, leftIH, rightIH]
  | sub _ _ leftIH rightIH => simp [Expr.denote, leftIH, rightIH]
  | mul _ _ leftIH rightIH => simp [Expr.denote, leftIH, rightIH]
  | @div _ _ first second quotient _ _ _ invertible divides leftIH rightIH =>
      have inverse : inverse? second = some second⁻¹ :=
        inverse?_eq_some_iff.mpr ⟨invertible.ne_zero, rfl⟩
      have equal : first * second⁻¹ = quotient := by
        rw [← divides, mul_inv_cancel_right₀ invertible.ne_zero]
      simp [Expr.denote, leftIH, rightIH, inverse, equal]
  | pow _ _ power ih => simp [Expr.denote, ih, Expr.asInt?, power?_eq_some_iff.mpr power]
  | call _ found _ => cases found

/-- Where a rational function has a value it can be read. -/
theorem means_of_denote (rational : tree.isRationalFunction = true)
    (denotes : tree.denote valuation = some value) : Means (.rationals valuation) tree value := by
  fun_induction Expr.denote valuation tree generalizing value with
  | case1 number mark =>
      obtain ⟨fraction, isFraction⟩ := Number.isFraction_iff.mp rational
      obtain rfl : fraction = value := by simpa [isFraction.1] using denotes
      exact .number (Reading.reads_rationals_iff.mpr isFraction)
  | case2 name mark => exact .var denotes
  | case3 operand mark ih =>
      simp only [Option.bind_eq_bind, Option.bind_eq_some_iff, Option.pure_def,
        Option.some.injEq] at denotes
      obtain ⟨first, operandDenotes, rfl⟩ := denotes
      exact .neg (ih rational operandDenotes)
  | case4 left right mark leftIH rightIH =>
      obtain ⟨leftRational, rightRational⟩ := Bool.and_eq_true_iff.mp rational
      simp only [Option.bind_eq_bind, Option.bind_eq_some_iff, Option.pure_def,
        Option.some.injEq] at denotes
      obtain ⟨first, leftDenotes, second, rightDenotes, rfl⟩ := denotes
      exact .add (leftIH leftRational leftDenotes) (rightIH rightRational rightDenotes)
  | case5 left right mark leftIH rightIH =>
      obtain ⟨leftRational, rightRational⟩ := Bool.and_eq_true_iff.mp rational
      simp only [Option.bind_eq_bind, Option.bind_eq_some_iff, Option.pure_def,
        Option.some.injEq] at denotes
      obtain ⟨first, leftDenotes, second, rightDenotes, rfl⟩ := denotes
      exact .sub (leftIH leftRational leftDenotes) (rightIH rightRational rightDenotes)
  | case6 left right mark leftIH rightIH =>
      obtain ⟨leftRational, rightRational⟩ := Bool.and_eq_true_iff.mp rational
      simp only [Option.bind_eq_bind, Option.bind_eq_some_iff, Option.pure_def,
        Option.some.injEq] at denotes
      obtain ⟨first, leftDenotes, second, rightDenotes, rfl⟩ := denotes
      exact .mul (leftIH leftRational leftDenotes) (rightIH rightRational rightDenotes)
  | case7 left right mark leftIH rightIH =>
      obtain ⟨leftRational, rightRational⟩ := Bool.and_eq_true_iff.mp rational
      simp only [Option.bind_eq_bind, Option.bind_eq_some_iff, Option.pure_def,
        Option.some.injEq, inverse?_eq_some_iff] at denotes
      obtain ⟨first, leftDenotes, second, rightDenotes, _, ⟨nonzero, rfl⟩, rfl⟩ := denotes
      exact .div (leftIH leftRational leftDenotes) (rightIH rightRational rightDenotes)
        (IsUnit.mk0 second nonzero) (inv_mul_cancel_right₀ nonzero first)
  | case8 base exponent mark ih =>
      obtain ⟨baseRational, whole⟩ := Bool.and_eq_true_iff.mp rational
      simp only [Option.bind_eq_bind, Option.bind_eq_some_iff, power?_eq_some_iff] at denotes
      obtain ⟨first, baseDenotes, n, view, power⟩ := denotes
      have inRange : InRange n := by simpa [view] using whole
      exact Means.pow_iff.mpr ⟨first, n, ih baseRational baseDenotes,
        ⟨inRange, Expr.eq_of_asInt? view⟩, power⟩
  | case9 => contradiction

/-- Readings in the rationals tell which trees are rational functions and what
they denote. -/
theorem means_rationals_iff : Means (.rationals valuation) tree value ↔
    tree.isRationalFunction = true ∧ tree.denote valuation = some value :=
  ⟨fun means => ⟨means.isRationalFunction, means.denote⟩,
    fun ⟨rational, denotes⟩ => means_of_denote rational denotes⟩

end Rationals

end SymbolicAlgebra
