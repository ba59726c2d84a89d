import Mathlib.Tactic.FieldSimp
import Mathlib.Tactic.Linarith
import Mathlib.Tactic.Ring
import SymbolicAlgebra.Number.Ratio

/-!
# Exactness of checked rational arithmetic

A checked operation on fractions that is not refused yields the mathematical
result, and both parts of the result are again in range.  The checks are made on
the integers of the textbook computation, before the last reduction, so the
range of the result follows from one fact: the reduced form of a fraction of two
integers in range has parts in range.
-/

namespace SymbolicAlgebra

/-- A divisor of an integer in range is in range. -/
theorem InRange.of_mul {factor value : Int} (positive : 0 < factor)
    (inRange : InRange (factor * value)) : InRange value := by
  obtain ⟨lower, upper⟩ := inRange
  unfold InRange minInt maxInt at *
  rcases le_or_gt 0 value with nonneg | negative
  · have : value ≤ factor * value := le_mul_of_one_le_left nonneg positive
    omega
  · have : factor * value ≤ value := by nlinarith
    omega

theorem inRange_zero : InRange 0 := by decide

theorem inRange_one : InRange 1 := by decide

theorem InRange.neg {value : Int} (inRange : InRange value) (notLeast : value ≠ minInt) :
    InRange (-value) := by
  unfold InRange minInt maxInt at *
  omega

namespace Ratio

/-- The reduced form of a fraction of two integers in range, with a positive
denominator, is in range. -/
theorem inRange_of_eq_divInt {ratio : Rat} {numerator denominator : Int}
    (equal : ratio = Rat.divInt numerator denominator) (positive : 0 < denominator)
    (numeratorInRange : SymbolicAlgebra.InRange numerator)
    (denominatorInRange : SymbolicAlgebra.InRange denominator) : InRange ratio := by
  obtain ⟨factor, numeratorEq, denominatorEq⟩ := Rat.num_den_mk positive.ne' equal
  have denPositive : (0 : Int) < ratio.den := by exact_mod_cast ratio.den_pos
  have factorPositive : 0 < factor := by
    rw [denominatorEq] at positive
    exact pos_of_mul_pos_left positive denPositive.le
  exact ⟨.of_mul factorPositive (numeratorEq ▸ numeratorInRange),
    .of_mul factorPositive (denominatorEq ▸ denominatorInRange)⟩

/-- The same for a negative denominator, when both parts can be negated. -/
theorem inRange_of_eq_divInt_neg {ratio : Rat} {numerator denominator : Int}
    (equal : ratio = Rat.divInt numerator denominator) (negative : denominator < 0)
    (numeratorInRange : SymbolicAlgebra.InRange (-numerator))
    (denominatorInRange : SymbolicAlgebra.InRange (-denominator)) : InRange ratio := by
  have equalNegated : ratio = Rat.divInt (-numerator) (-denominator) := by
    rw [equal, Rat.neg_divInt_neg]
  exact inRange_of_eq_divInt equalNegated (by omega) numeratorInRange denominatorInRange

theorem inRange_intCast {value : Int} (inRange : SymbolicAlgebra.InRange value) :
    InRange (value : Rat) :=
  ⟨by simpa using inRange, by simpa using inRange_one⟩

/-- The value of a fraction of two integers. -/
theorem ofInts?_eq_some {numerator denominator : Int} {ratio : Rat}
    (numeratorInRange : SymbolicAlgebra.InRange numerator)
    (denominatorInRange : SymbolicAlgebra.InRange denominator)
    (result : ofInts? numerator denominator = some ratio) :
    ratio = numerator / denominator ∧ denominator ≠ 0 ∧ InRange ratio := by
  unfold ofInts? at result
  split at result
  · contradiction
  · rename_i accepted
    obtain ⟨nonzero, numeratorNotLeast, denominatorNotLeast⟩ : denominator ≠ 0 ∧
        numerator ≠ minInt ∧ denominator ≠ minInt := by
      simpa only [not_or] using accepted
    have equal := (Option.some.inj result).symm
    refine ⟨by rw [equal, Rat.divInt_eq_div], nonzero, ?_⟩
    rcases lt_or_gt_of_ne nonzero with negative | positive
    · exact inRange_of_eq_divInt_neg equal negative (numeratorInRange.neg numeratorNotLeast)
        (denominatorInRange.neg denominatorNotLeast)
    · exact inRange_of_eq_divInt equal positive numeratorInRange denominatorInRange

/-- The scaled numerators over the least common denominator stand for the same
fractions. -/
theorem overCommonDenominator?_eq_some {left right : Rat} {numerators : Int × Int}
    (result : overCommonDenominator? left right = some numerators) :
    ∃ common : Int, 0 < common ∧ SymbolicAlgebra.InRange common ∧
      left = numerators.1 / common ∧ right = numerators.2 / common := by
  unfold overCommonDenominator? at result
  simp only [Option.bind_eq_bind, Option.bind_eq_some_iff, checked_eq_some_iff,
    Option.pure_def, Option.some.injEq] at result
  obtain ⟨common, ⟨commonInRange, rfl⟩, leftScaled, ⟨_, rfl⟩, rightScaled, ⟨_, rfl⟩, rfl⟩ := result
  obtain ⟨leftPart, leftDen⟩ := Nat.gcd_dvd_left left.den right.den
  obtain ⟨rightPart, rightDen⟩ := Nat.gcd_dvd_right left.den right.den
  generalize sharedEq : Nat.gcd left.den right.den = shared at *
  have sharedPositive : 0 < shared := by
    rw [← sharedEq]
    exact Nat.gcd_pos_of_pos_left _ left.den_pos
  have leftQuotient : left.den / shared = leftPart := by
    rw [leftDen, Nat.mul_div_cancel_left _ sharedPositive]
  have leftPositive : 0 < leftPart := Nat.pos_of_mul_pos_left (leftDen ▸ left.den_pos)
  have rightPositive : 0 < rightPart := Nat.pos_of_mul_pos_left (rightDen ▸ right.den_pos)
  rw [leftQuotient]
  have commonLeft : ((leftPart : Int) * right.den) / left.den = rightPart := by
    rw [leftDen, rightDen]
    push_cast
    rw [show (leftPart : Int) * (shared * rightPart) = rightPart * (shared * leftPart) by ring]
    exact Int.mul_ediv_cancel _ (by positivity)
  have commonRight : ((leftPart : Int) * right.den) / right.den = leftPart :=
    Int.mul_ediv_cancel _ (by exact_mod_cast right.den_pos.ne')
  have leftPartNonzero : (leftPart : Rat) ≠ 0 := by exact_mod_cast leftPositive.ne'
  have rightPartNonzero : (rightPart : Rat) ≠ 0 := by exact_mod_cast rightPositive.ne'
  have crossed : (leftPart : Rat) * right.den = rightPart * left.den := by
    have naturals : leftPart * right.den = rightPart * left.den := by
      rw [leftDen, rightDen]
      ring
    exact_mod_cast naturals
  refine ⟨(leftPart : Int) * right.den, by have := right.den_pos; positivity,
    leftQuotient ▸ commonInRange, ?_, ?_⟩
  · rw [commonLeft]
    push_cast
    rw [crossed, mul_div_mul_left _ _ rightPartNonzero, Rat.num_div_den]
  · rw [commonRight]
    push_cast
    rw [mul_div_mul_left _ _ leftPartNonzero, Rat.num_div_den]

theorem add?_eq_some {left right ratio : Rat} (result : add? left right = some ratio) :
    ratio = left + right ∧ InRange ratio := by
  unfold add? at result
  simp only [Option.bind_eq_bind, Option.bind_eq_some_iff, checked_eq_some_iff,
    Option.pure_def, Option.some.injEq] at result
  obtain ⟨numerators, scaled, total, ⟨sumInRange, rfl⟩, rfl⟩ := result
  obtain ⟨common, positive, commonInRange, leftEq, rightEq⟩ := overCommonDenominator?_eq_some scaled
  have equal : left + right = Rat.divInt (numerators.1 + numerators.2) common := by
    rw [Rat.divInt_eq_div, leftEq, rightEq]
    push_cast
    ring
  exact ⟨rfl, inRange_of_eq_divInt equal positive sumInRange commonInRange⟩

theorem sub?_eq_some {left right ratio : Rat} (result : sub? left right = some ratio) :
    ratio = left - right ∧ InRange ratio := by
  unfold sub? at result
  simp only [Option.bind_eq_bind, Option.bind_eq_some_iff, checked_eq_some_iff,
    Option.pure_def, Option.some.injEq] at result
  obtain ⟨numerators, scaled, total, ⟨differenceInRange, rfl⟩, rfl⟩ := result
  obtain ⟨common, positive, commonInRange, leftEq, rightEq⟩ := overCommonDenominator?_eq_some scaled
  have equal : left - right = Rat.divInt (numerators.1 - numerators.2) common := by
    rw [Rat.divInt_eq_div, leftEq, rightEq]
    push_cast
    ring
  exact ⟨rfl, inRange_of_eq_divInt equal positive differenceInRange commonInRange⟩

/-- A fraction written by what remains of its parts after cancelling factors. -/
theorem eq_of_parts {ratio : Rat} {numFactor numPart : Int} {denFactor denPart : Nat}
    (numEq : numFactor * numPart = ratio.num) (denEq : denFactor * denPart = ratio.den) :
    ratio = (numFactor * numPart : Rat) / (denFactor * denPart) ∧
      (denFactor : Rat) ≠ 0 ∧ (denPart : Rat) ≠ 0 := by
  have numCast : (numFactor * numPart : Rat) = ratio.num := by exact_mod_cast numEq
  have denCast : (denFactor * denPart : Rat) = ratio.den := by exact_mod_cast denEq
  refine ⟨by rw [numCast, denCast, Rat.num_div_den], mul_ne_zero_iff.mp ?_⟩
  rw [denCast]
  exact_mod_cast ratio.den_pos.ne'

/-- Numerators and denominators of two factors may be cancelled crosswise. -/
theorem mul_eq_of_parts {left right : Rat} {first second leftDen rightDen : Nat}
    {leftNum rightNum : Int} (leftNumEq : first * leftNum = left.num)
    (leftDenEq : second * leftDen = left.den) (rightNumEq : second * rightNum = right.num)
    (rightDenEq : first * rightDen = right.den) :
    left * right = Rat.divInt (leftNum * rightNum) ((leftDen : Int) * rightDen) := by
  obtain ⟨leftEq, secondNonzero, leftNonzero⟩ := eq_of_parts leftNumEq leftDenEq
  obtain ⟨rightEq, firstNonzero, rightNonzero⟩ := eq_of_parts rightNumEq rightDenEq
  rw [Rat.divInt_eq_div, leftEq, rightEq]
  push_cast
  field_simp

/-- Numerators of a quotient may be cancelled, and so may its denominators. -/
theorem div_eq_of_parts {left right : Rat} {first second leftDen rightDen : Nat}
    {leftNum rightNum : Int} (leftNumEq : first * leftNum = left.num)
    (leftDenEq : second * leftDen = left.den) (rightNumEq : first * rightNum = right.num)
    (rightDenEq : second * rightDen = right.den) (nonzero : right.num ≠ 0) :
    left / right = Rat.divInt (leftNum * rightDen) (leftDen * rightNum) := by
  obtain ⟨leftEq, secondNonzero, leftNonzero⟩ := eq_of_parts leftNumEq leftDenEq
  obtain ⟨rightEq, _, rightNonzero⟩ := eq_of_parts rightNumEq rightDenEq
  rw [← rightNumEq] at nonzero
  have firstNonzero : (first : Rat) ≠ 0 := by exact_mod_cast left_ne_zero_of_mul nonzero
  have rightNumNonzero : (rightNum : Rat) ≠ 0 := by exact_mod_cast right_ne_zero_of_mul nonzero
  rw [Rat.divInt_eq_div, leftEq, rightEq]
  push_cast
  field_simp

theorem mul?_eq_some {left right ratio : Rat} (result : mul? left right = some ratio) :
    ratio = left * right ∧ InRange ratio := by
  unfold mul? at result
  simp only [Option.bind_eq_bind, Option.bind_eq_some_iff, checked_eq_some_iff,
    Option.pure_def, Option.some.injEq] at result
  obtain ⟨_, ⟨numeratorInRange, rfl⟩, _, ⟨denominatorInRange, rfl⟩, rfl⟩ := result
  have leftNum := Int.mul_ediv_cancel'
    (Int.natCast_dvd.mpr (Nat.gcd_dvd_left left.num.natAbs right.den))
  have rightNum := Int.mul_ediv_cancel'
    (Int.natCast_dvd.mpr (Nat.gcd_dvd_right left.den right.num.natAbs))
  have leftDen := Nat.mul_div_cancel' (Nat.gcd_dvd_left left.den right.num.natAbs)
  have rightDen := Nat.mul_div_cancel' (Nat.gcd_dvd_right left.num.natAbs right.den)
  refine ⟨rfl, inRange_of_eq_divInt (mul_eq_of_parts leftNum leftDen rightNum rightDen) ?_
    numeratorInRange denominatorInRange⟩
  have leftPositive := Nat.pos_of_mul_pos_left (leftDen ▸ left.den_pos)
  have rightPositive := Nat.pos_of_mul_pos_left (rightDen ▸ right.den_pos)
  exact_mod_cast Nat.mul_pos leftPositive rightPositive

/-- Normalizing a fraction of integers in range keeps its value. -/
theorem normalized?_eq_some {numerator denominator : Int} {ratio : Rat}
    (numeratorInRange : SymbolicAlgebra.InRange numerator)
    (denominatorInRange : SymbolicAlgebra.InRange denominator)
    (result : normalized? numerator denominator = some ratio) :
    ratio = numerator / denominator ∧ InRange ratio := by
  unfold normalized? at result
  split at result
  · contradiction
  rename_i nonzero
  have denominatorNonzero : (denominator : Rat) ≠ 0 := by exact_mod_cast nonzero
  split at result
  · rename_i zero
    obtain rfl := Option.some.inj result
    exact ⟨by simp [zero], by decide⟩
  split at result
  · rename_i equal
    obtain rfl := Option.some.inj result
    exact ⟨by rw [equal, div_self denominatorNonzero], by decide⟩
  split at result
  · rename_i positive
    have equal := (Option.some.inj result).symm
    exact ⟨by rw [equal, Rat.divInt_eq_div],
      inRange_of_eq_divInt equal positive numeratorInRange denominatorInRange⟩
  · simp only [Option.bind_eq_bind, Option.bind_eq_some_iff, checked_eq_some_iff,
      Option.pure_def, Option.some.injEq] at result
    obtain ⟨_, ⟨negatedNumerator, rfl⟩, _, ⟨negatedDenominator, rfl⟩, equal⟩ := result
    have numeratorEq := Int.mul_ediv_cancel' (Int.gcd_dvd_left numerator denominator)
    have denominatorEq := Int.mul_ediv_cancel' (Int.gcd_dvd_right numerator denominator)
    have sharedPositive : 0 < (Int.gcd numerator denominator : Int) := by
      exact_mod_cast Int.gcd_pos_of_ne_zero_right _ nonzero
    have quotientNegative : denominator / Int.gcd numerator denominator < 0 :=
      Int.ediv_neg_of_neg_of_pos (by omega) sharedPositive
    refine ⟨by rw [← equal, Rat.divInt_eq_div],
      inRange_of_eq_divInt_neg ?_ quotientNegative negatedNumerator negatedDenominator⟩
    calc ratio = Rat.divInt numerator denominator := equal.symm
      _ = _ := by rw [← Rat.divInt_mul_left sharedPositive.ne' (n := numerator / _),
        numeratorEq, denominatorEq]

theorem div?_eq_some {left right ratio : Rat} (leftInRange : InRange left)
    (rightInRange : InRange right) (result : div? left right = some ratio) :
    ratio = left / right ∧ right ≠ 0 ∧ InRange ratio := by
  unfold div? at result
  split at result
  · contradiction
  rename_i nonzero
  have rightNonzero : right ≠ 0 := fun zero => nonzero (by simp [zero])
  have rightNumNonzero : (right.num : Rat) ≠ 0 := by exact_mod_cast nonzero
  have leftDenNonzero : (left.den : Rat) ≠ 0 := by exact_mod_cast left.den_pos.ne'
  have rightDenNonzero : (right.den : Rat) ≠ 0 := by exact_mod_cast right.den_pos.ne'
  have quotient : left / right = left.num / left.den / (right.num / right.den) := by
    rw [Rat.num_div_den, Rat.num_div_den]
  split at result
  · -- equal denominators cancel
    rename_i equal
    obtain ⟨ratioEq, inRange⟩ := normalized?_eq_some leftInRange.1 rightInRange.1 result
    refine ⟨?_, rightNonzero, inRange⟩
    rw [ratioEq, quotient, equal]
    field_simp
  split at result
  · -- equal numerators cancel
    rename_i equal
    obtain ⟨ratioEq, inRange⟩ := normalized?_eq_some rightInRange.2 leftInRange.2 result
    refine ⟨?_, rightNonzero, inRange⟩
    rw [ratioEq, quotient, equal]
    push_cast
    field_simp
  · simp only [Option.bind_eq_bind, Option.bind_eq_some_iff, checked_eq_some_iff] at result
    obtain ⟨_, ⟨numeratorInRange, rfl⟩, _, ⟨denominatorInRange, rfl⟩, result⟩ := result
    have leftNum := Int.mul_ediv_cancel' (Int.gcd_dvd_left left.num right.num)
    have rightNum := Int.mul_ediv_cancel' (Int.gcd_dvd_right left.num right.num)
    have leftDen := Nat.mul_div_cancel' (Nat.gcd_dvd_left left.den right.den)
    have rightDen := Nat.mul_div_cancel' (Nat.gcd_dvd_right left.den right.den)
    obtain ⟨ratioEq, inRange⟩ := normalized?_eq_some numeratorInRange denominatorInRange result
    refine ⟨?_, rightNonzero, inRange⟩
    rw [ratioEq, div_eq_of_parts leftNum leftDen rightNum rightDen nonzero, Rat.divInt_eq_div]

theorem neg?_eq_some {ratio negated : Rat} (inRange : InRange ratio)
    (result : neg? ratio = some negated) : negated = -ratio ∧ InRange negated := by
  unfold neg? at result
  simp only [Option.bind_eq_bind, Option.bind_eq_some_iff, checked_eq_some_iff,
    Option.pure_def, Option.some.injEq] at result
  obtain ⟨_, ⟨numeratorInRange, rfl⟩, rfl⟩ := result
  exact ⟨rfl, by simpa using numeratorInRange, by simpa using inRange.2⟩

end Ratio

end SymbolicAlgebra
