import Mathlib.Tactic.NormNum.IsSquare
import SymbolicAlgebra.Proofs.ExactPowers

/-!
# Exact square roots

The square root of an integer or a fraction is exact exactly when the radicand or its
negative is the square of a rational.  In lowest terms both parts of such a fraction are
perfect squares, which is what the computation looks for.

An exact root multiplied by itself gives the radicand back.  On the real axis the product
is formed because the range holds it.  On the imaginary axis the square of the magnitude is
formed before it is negated; it is in range as well, because the least integer is not the
negative of a square.
-/

namespace SymbolicAlgebra

namespace Ratio

variable {ratio root : Rat}

theorem inRange_intCast_iff {value : Int} :
    InRange (value : Rat) ↔ SymbolicAlgebra.InRange value := by
  refine ⟨fun inRange => ?_, inRange_intCast⟩
  rw [← Rat.num_intCast value]
  exact inRange.1

/-- A fraction is subtracted from zero when its negative is in range as well. -/
theorem zero_sub? (inRange : InRange ratio) (negated : InRange (-ratio)) :
    sub? 0 ratio = some (-ratio) := by
  have denominator : checked ratio.den = some ratio.den := checked_eq_some_iff.mpr ⟨inRange.2, rfl⟩
  have numerator : checked ratio.num = some ratio.num := checked_eq_some_iff.mpr ⟨inRange.1, rfl⟩
  have difference : checked (-ratio.num) = some (-ratio.num) :=
    checked_eq_some_iff.mpr ⟨by simpa using negated.1, rfl⟩
  simp [sub?, overCommonDenominator?, denominator, numerator, difference,
    checked_eq_some_iff.mpr ⟨inRange_zero, rfl⟩]

/-- The least integer is not the negative of a square. -/
theorem inRange_mul_self_of_neg (negated : InRange (-(root * root))) : InRange (root * root) := by
  obtain ⟨numerator, denominator⟩ := negated
  rw [Rat.num_neg_eq_neg_num, Rat.mul_self_num] at numerator
  rw [Rat.den_neg_eq_den] at denominator
  refine ⟨?_, denominator⟩
  have notLeast : root.num * root.num ≠ 9223372036854775808 := by
    intro least
    have noSquare : ¬ IsSquare (9223372036854775808 : Int) := by norm_num
    exact noSquare ⟨root.num, least.symm⟩
  have nonnegative : 0 ≤ root.num * root.num := mul_self_nonneg root.num
  rw [Rat.mul_self_num]
  unfold SymbolicAlgebra.InRange minInt maxInt at *
  omega

end Ratio

namespace Number

/-! ## Exactness -/

theorem sqrtInt_isExact_iff (value : Int) :
    (sqrtInt value).isExact = true ↔ IsSquare value.natAbs := by
  have perfect : IsSquare value.natAbs ↔
      Nat.sqrt value.natAbs * Nat.sqrt value.natAbs = value.natAbs := by
    rw [← Nat.exists_mul_self, isSquare_iff_exists_mul_self]
    simp only [eq_comm]
  rw [perfect]
  unfold sqrtInt
  dsimp only
  by_cases square : Nat.sqrt value.natAbs * Nat.sqrt value.natAbs = value.natAbs
  · rw [if_pos square]
    refine iff_of_true ?_ square
    split
    · rfl
    · unfold ofComplexInt
      split <;> rfl
  · rw [if_neg square]
    refine iff_of_false ?_ square
    split
    · exact Bool.false_ne_true
    · exact ne_true_of_eq_false (ofComplexFloat_isExact _)

/-- A root is exact exactly when the magnitude is the square of a rational. -/
theorem IsFraction.sqrt_isExact_iff {number : Number} {value : ℚ}
    (fraction : number.IsFraction value) : number.sqrt.isExact = true ↔ IsSquare |value| := by
  obtain ⟨view, bounded⟩ := fraction
  cases number with
  | int whole =>
      obtain rfl := Option.some.inj view
      rw [Number.sqrt, sqrtInt_isExact_iff, ← Int.cast_abs, Int.abs_eq_natAbs,
        Int.cast_natCast, Rat.isSquare_natCast_iff]
  | rational ratio =>
      obtain rfl := Option.some.inj view
      rw [sqrt_rational_isExact_iff bounded, sqrtInt_isExact_iff, sqrtInt_isExact_iff,
        Rat.isSquare_iff, Rat.num_abs_eq_abs_num, Rat.den_abs_eq_den, Int.abs_eq_natAbs,
        Int.isSquare_natCast_iff, Int.natAbs_natCast]
  | real _ | complexInt _ | complexRational _ | complexReal _ => cases view

/-! ## Squares of roots -/

theorem ofRatio_intCast (value : Int) : ofRatio value = .int value := by
  simp [ofRatio, Ratio.isInteger]

variable {number : Number} {root : ℚ}

theorem Represents.mul_self_real (represents : number.Represents ⟨root, 0⟩)
    (inRange : Ratio.InRange (root * root)) : number.mul number = ofRatio (root * root) := by
  have fraction := IsFraction.of_represents represents
  have product := toRatio?_mul fraction.1 fraction.1 inRange
  have exact : (number.mul number).isExact = true :=
    isExact_iff_value?.mpr ⟨_, (toRatio?_view product).1⟩
  rw [(fraction.mul fraction exact).eq_ofComplexRatio, ofComplexRatio, if_pos rfl]

theorem Represents.mul_self_imaginary (represents : number.Represents ⟨0, root⟩)
    (nonzero : root ≠ 0) (negated : Ratio.InRange (-(root * root))) :
    number.mul number = ofRatio (-(root * root)) := by
  have inRange := Ratio.inRange_mul_self_of_neg negated
  obtain ⟨canonical, denotes⟩ := represents
  cases number with
  | int _ | rational _ =>
      exact absurd (congrArg QuadraticAlgebra.im (Option.some.inj denotes)).symm nonzero
  | complexInt parts =>
      obtain ⟨re, im⟩ := parts
      obtain rfl : re = 0 :=
        Int.cast_eq_zero.mp (congrArg QuadraticAlgebra.re (Option.some.inj denotes))
      obtain rfl : (im : ℚ) = root := congrArg QuadraticAlgebra.im (Option.some.inj denotes)
      rw [← Int.cast_mul, Ratio.inRange_intCast_iff] at inRange
      rw [← Int.cast_mul, ← Int.cast_neg, Ratio.inRange_intCast_iff] at negated
      rw [← Int.cast_mul, ← Int.cast_neg, ofRatio_intCast]
      refine TierOperation.run_eq_of_join ?_
      change (mulComplexInt? ⟨0, im⟩ ⟨0, im⟩).map (fun product =>
        ofComplexInt product.re product.im) = _
      simp [mulComplexInt?, checked, inRange_zero, inRange, negated, ofComplexInt]
  | complexRational parts =>
      obtain ⟨re, im⟩ := parts
      obtain rfl : re = 0 := congrArg QuadraticAlgebra.re (Option.some.inj denotes)
      obtain rfl : im = root := congrArg QuadraticAlgebra.im (Option.some.inj denotes)
      have noReal : Ratio.mul? 0 0 = some 0 := by decide +kernel
      have noImaginary : Ratio.add? 0 0 = some 0 := by decide +kernel
      have zeroInRange : Ratio.InRange 0 := by decide
      have right : Ratio.mul? im 0 = some 0 := by
        rw [Ratio.mul?_of_inRange (by rwa [mul_zero]), mul_zero]
      have left : Ratio.mul? 0 im = some 0 := by
        rw [Ratio.mul?_of_inRange (by rwa [zero_mul]), zero_mul]
      refine TierOperation.run_eq_of_join ?_
      change multiplication.complexRational ⟨0, im⟩ ⟨0, im⟩ = _
      simp [multiplication, left, right, noReal, Ratio.mul?_of_inRange inRange,
        Ratio.zero_sub? inRange negated, noImaginary, ofComplexRatio]
  | real _ | complexReal _ => cases denotes

/-! ## Principal roots -/

/-- The square root of an integer or a fraction is exact exactly when the magnitude of the
radicand is the square of a rational.  An exact root is in normal form, it is the principal
one, on the real axis or above it on the imaginary axis, and its product with itself is the
radicand. -/
theorem sqrt_isExact_iff_isSquare {value : ℚ} (canonical : number.Canonical)
    (denotes : number.toRatio? = some value) :
    (number.sqrt.isExact = true ↔ IsSquare |value|) ∧
      (number.sqrt.isExact = true →
        number.sqrt.mul number.sqrt = number ∧
        ∃ root, number.sqrt.Represents root ∧
          (0 ≤ value → 0 ≤ root.re ∧ root.im = 0) ∧ (value < 0 → root.re = 0 ∧ 0 < root.im)) := by
  have fraction : number.IsFraction value := ⟨denotes, canonical.bounded⟩
  have inRange : Ratio.InRange value := (toRatio?_view denotes).2 canonical.bounded
  have normal : ofRatio value = number := by
    have represents : number.Represents ⟨value, 0⟩ := ⟨canonical, fraction.value?⟩
    rw [represents.eq_ofComplexRatio, ofComplexRatio, if_pos rfl]
  refine ⟨fraction.sqrt_isExact_iff, fun exact => ?_⟩
  obtain ⟨root, nonnegative, square, represents⟩ := fraction.sqrt exact
  by_cases above : 0 ≤ value
  · rw [if_pos above] at represents
    rw [abs_of_nonneg above] at square
    refine ⟨?_, _, represents, fun _ => ⟨nonnegative, rfl⟩, fun below => absurd above below.not_ge⟩
    rw [represents.mul_self_real (square ▸ inRange), square, normal]
  · have below : value < 0 := not_le.mp above
    rw [if_neg above] at represents
    rw [abs_of_neg below] at square
    have negated : -(root * root) = value := by rw [square, neg_neg]
    have nonzero : root ≠ 0 := by
      rintro rfl
      linarith
    refine ⟨?_, _, represents, fun nonneg => absurd nonneg above,
      fun _ => ⟨rfl, nonnegative.lt_of_ne nonzero.symm⟩⟩
    rw [represents.mul_self_imaginary nonzero (negated ▸ inRange), negated, normal]

/-- The root of `-9 / 4` is `3 / 2` on the imaginary axis. -/
theorem root_of_negative_fraction_is_principal :
    let radicand : Number := .rational (-9 / 4)
    radicand.Canonical ∧ radicand.toRatio? = some (-9 / 4) ∧
      radicand.sqrt = .complexRational ⟨0, 3 / 2⟩ ∧ radicand.sqrt.mul radicand.sqrt = radicand ∧
      IsSquare |(-9 / 4 : ℚ)| := by
  have canonical : (Number.rational (-9 / 4)).Canonical := ⟨by decide +kernel, by decide +kernel⟩
  obtain ⟨exactness, principal⟩ := sqrt_isExact_iff_isSquare canonical rfl
  have exact : (Number.rational (-9 / 4)).sqrt.isExact = true := by decide +kernel
  exact ⟨canonical, rfl, by decide +kernel, (principal exact).1, exactness.mp exact⟩

end Number

end SymbolicAlgebra
