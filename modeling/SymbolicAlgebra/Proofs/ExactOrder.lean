import Mathlib.Order.Defs.Unbundled
import SymbolicAlgebra.Expr.Basic
import SymbolicAlgebra.Number.Order
import SymbolicAlgebra.Proofs.FractionArithmetic

/-!
# Equality and order of exact numbers

Exact numbers are compared in several ways.  The leaves of trees are compared by what they
look like, the two sides of an equation by value across representations, and fractions are
ordered by cross multiplication.  Comparison by value is equality in the field of Gaussian
rationals for all exact numbers.  Comparison by looks is the same thing only on normal
forms, where a value has no second number that stands for it.

Cross multiplication needs twice the width of the range, and no more: a numerator times a
denominator of the range is below the square of the bound.  So the order is that of the
rationals, and the exact reals in normal form are linearly ordered by it.
-/

namespace SymbolicAlgebra

/-! ## Cross multiplication -/

/-- The integers of twice the width of the range. -/
def InDoubleRange (value : Int) : Prop := -2 ^ 127 ≤ value ∧ value < 2 ^ 127

instance (value : Int) : Decidable (InDoubleRange value) :=
  inferInstanceAs (Decidable (-2 ^ 127 ≤ value ∧ value < 2 ^ 127))

namespace Ratio

theorem compare_cross (p q : ℚ) : compare (p.num * q.den) (q.num * p.den) = compare p q := by
  rcases lt_trichotomy p q with below | rfl | above
  · rw [compare_lt_iff_lt.mpr below, compare_lt_iff_lt.mpr (Rat.lt_iff p q |>.mp below)]
  · rw [compare_eq_iff_eq.mpr rfl, compare_eq_iff_eq.mpr rfl]
  · rw [compare_gt_iff_gt.mpr above, compare_gt_iff_gt.mpr (Rat.lt_iff q p |>.mp above)]

/-- A numerator times a denominator of the range fits twice the width. -/
theorem inDoubleRange_cross {p q : ℚ} (pInRange : InRange p) (qInRange : InRange q) :
    InDoubleRange (p.num * q.den) := by
  have denominator : (0 : Int) ≤ q.den := Int.natCast_nonneg _
  have lower : minInt * maxInt ≤ p.num * q.den :=
    calc minInt * maxInt ≤ minInt * q.den :=
          mul_le_mul_of_nonpos_left qInRange.2.2 (by decide)
      _ ≤ p.num * q.den := mul_le_mul_of_nonneg_right pInRange.1.1 denominator
  have upper : p.num * q.den ≤ maxInt * maxInt :=
    calc p.num * q.den ≤ maxInt * q.den := mul_le_mul_of_nonneg_right pInRange.1.2 denominator
      _ ≤ maxInt * maxInt := mul_le_mul_of_nonneg_left qInRange.2.2 (by decide)
  exact ⟨le_trans (by decide) lower, upper.trans_lt (by decide)⟩

end Ratio

namespace Number

variable {number left right : Number} {value z w : GaussianRational} {p q : ℚ}

/-! ## Equality -/

theorem toComplexRatio?_of_value? (denotes : number.value? = some value) :
    number.toComplexRatio? = some ⟨value.re, value.im⟩ := by
  obtain ⟨parts, view, rfl⟩ := Option.map_eq_some_iff.mp denotes
  exact view

theorem toRatio?_of_value? (denotes : number.value? = some value)
    (real : number.isComplex = false) : number.toRatio? = some value.re ∧ value.im = 0 := by
  cases number with
  | int _ | rational _ =>
      obtain rfl := Option.some.inj denotes
      exact ⟨rfl, rfl⟩
  | real _ | complexReal _ => cases denotes
  | complexInt _ | complexRational _ => cases real

theorem compare?_eq_compare (leftView : left.toRatio? = some p)
    (rightView : right.toRatio? = some q) :
    left.compare? right = some (compare p q) := by
  have leftReal : left.isComplex = false := by cases left <;> first | rfl | cases leftView
  have rightReal : right.isComplex = false := by cases right <;> first | rfl | cases rightView
  simp only [compare?, leftReal, rightReal, leftView, rightView, Bool.or_self,
    Bool.false_eq_true, if_false, Ratio.compare_cross]

/-- Equality by value is equality in the field of Gaussian rationals. -/
theorem valueEq_iff_eq (leftDenotes : left.value? = some z) (rightDenotes : right.value? = some w) :
    left.valueEq right = true ↔ z = w := by
  unfold valueEq
  split
  · rename_i real
    simp only [Bool.and_eq_true, Bool.not_eq_true'] at real
    obtain ⟨leftView, leftIm⟩ := toRatio?_of_value? leftDenotes real.1
    obtain ⟨rightView, rightIm⟩ := toRatio?_of_value? rightDenotes real.2
    rw [compare?_eq_compare leftView rightView, QuadraticAlgebra.ext_iff, leftIm, rightIm]
    simp
  · rw [toComplexRatio?_of_value? leftDenotes, toComplexRatio?_of_value? rightDenotes]
    simp [BEq.beq, instBEqCartesian.beq, QuadraticAlgebra.ext_iff]

theorem Represents.beq_iff_eq (leftRepresents : left.Represents z)
    (rightRepresents : right.Represents w) : (left == right) = true ↔ z = w := by
  rw [beq_iff_eq_of_isExact leftRepresents.isExact]
  constructor
  · rintro rfl
    exact Option.some.inj (leftRepresents.2.symm.trans rightRepresents.2)
  · rintro rfl
    rw [leftRepresents.eq_ofComplexRatio, rightRepresents.eq_ofComplexRatio]

/-- Leaves that are exact are compared as numbers, whatever their marks. -/
theorem leaf_beq_eq_beq (exact : left.isExact = true) (mark other : Mark) :
    (Expr.number left mark == Expr.number right other) = (left == right) := by
  show (left == right || left.isNaN && _) = _
  rw [isNaN_eq_false_of_isExact exact, Bool.false_and, Bool.or_false]

end Number

/-! ## Order -/

/-- The exact real numbers: integers and fractions in normal form. -/
def ExactReal : Type :=
  { number : Number // number.Canonical ∧ number.isExact = true ∧ number.isComplex = false }

namespace ExactReal

/-- The comparison of the two numbers has a result, and it is not that the first is greater. -/
instance : LE ExactReal :=
  ⟨fun x y => ∃ order, x.val.compare? y.val = some order ∧ order.isLE = true⟩

theorem exists_represents (x : ExactReal) :
    ∃ value : ℚ, x.val.Represents ⟨value, 0⟩ ∧ x.val.toRatio? = some value := by
  obtain ⟨number, canonical, exact, real⟩ := x
  obtain ⟨value, denotes⟩ := Number.isExact_iff_value?.mp exact
  obtain ⟨view, imaginary⟩ := Number.toRatio?_of_value? denotes real
  have parts : value = ⟨value.re, 0⟩ := QuadraticAlgebra.ext rfl imaginary
  exact ⟨value.re, ⟨canonical, parts ▸ denotes⟩, view⟩

theorem le_iff {x y : ExactReal} {p q : ℚ} (view : x.val.toRatio? = some p)
    (otherView : y.val.toRatio? = some q) : x ≤ y ↔ p ≤ q := by
  show (∃ order, x.val.compare? y.val = some order ∧ order.isLE = true) ↔ _
  rw [Number.compare?_eq_compare view otherView]
  simp [Ordering.isLE_iff_ne_gt, compare_gt_iff_gt]

/-- Exact reals of one value are one number, which makes the order antisymmetric. -/
instance : IsLinearOrder ExactReal (· ≤ ·) where
  refl x := by
    obtain ⟨p, -, view⟩ := x.exists_represents
    exact (le_iff view view).mpr le_rfl
  trans x y z first second := by
    obtain ⟨p, -, view⟩ := x.exists_represents
    obtain ⟨q, -, middleView⟩ := y.exists_represents
    obtain ⟨r, -, lastView⟩ := z.exists_represents
    rw [le_iff view middleView] at first
    rw [le_iff middleView lastView] at second
    exact (le_iff view lastView).mpr (first.trans second)
  antisymm x y first second := by
    obtain ⟨p, represents, view⟩ := x.exists_represents
    obtain ⟨q, otherRepresents, otherView⟩ := y.exists_represents
    rw [le_iff view otherView] at first
    rw [le_iff otherView view] at second
    obtain rfl := le_antisymm first second
    exact Subtype.ext (represents.eq_ofComplexRatio.trans otherRepresents.eq_ofComplexRatio.symm)
  total x y := by
    obtain ⟨p, -, view⟩ := x.exists_represents
    obtain ⟨q, -, otherView⟩ := y.exists_represents
    rw [le_iff view otherView, le_iff otherView view]
    exact le_total p q

end ExactReal

/-! ## The notions coincide -/

namespace Number

/-- On exact numbers in normal form, equality of leaves, equality by value and equality of
the Gaussian rationals coincide.  Real ones are compared as rationals, within twice the
width of the range, and this is a linear order. -/
theorem exact_equalities_coincide_and_order_is_linear {left right : Number}
    (leftCanonical : left.Canonical) (rightCanonical : right.Canonical)
    (leftExact : left.isExact = true) (rightExact : right.isExact = true) :
    ((left == right) = true ↔ left.value? = right.value?) ∧
      (∀ mark other, (Expr.number left mark == Expr.number right other) = true ↔
        left.value? = right.value?) ∧
      (left.valueEq right = true ↔ left.value? = right.value?) ∧
      (left.isComplex = false → right.isComplex = false →
        ∃ p q : ℚ, left.toRatio? = some p ∧ right.toRatio? = some q ∧
          left.compare? right = some (compare p q) ∧
          InDoubleRange (p.num * q.den) ∧ InDoubleRange (q.num * p.den)) ∧
      IsLinearOrder ExactReal (· ≤ ·) := by
  obtain ⟨z, leftDenotes⟩ := isExact_iff_value?.mp leftExact
  obtain ⟨w, rightDenotes⟩ := isExact_iff_value?.mp rightExact
  have leaves : (left == right) = true ↔ left.value? = right.value? := by
    rw [Represents.beq_iff_eq ⟨leftCanonical, leftDenotes⟩ ⟨rightCanonical, rightDenotes⟩,
      leftDenotes, rightDenotes, Option.some.injEq]
  refine ⟨leaves, fun mark other => ?_, ?_, fun leftReal rightReal => ?_, inferInstance⟩
  · rw [leaf_beq_eq_beq leftExact, leaves]
  · rw [valueEq_iff_eq leftDenotes rightDenotes, leftDenotes, rightDenotes, Option.some.injEq]
  · obtain ⟨leftView, -⟩ := toRatio?_of_value? leftDenotes leftReal
    obtain ⟨rightView, -⟩ := toRatio?_of_value? rightDenotes rightReal
    have leftInRange := (toRatio?_view leftView).2 leftCanonical.bounded
    have rightInRange := (toRatio?_view rightView).2 rightCanonical.bounded
    exact ⟨z.re, w.re, leftView, rightView, compare?_eq_compare leftView rightView,
      Ratio.inDoubleRange_cross leftInRange rightInRange,
      Ratio.inDoubleRange_cross rightInRange leftInRange⟩

/-- Two fractions whose cross products leave the range itself, by far: they differ, and the
first is greater. -/
theorem widest_cross_products_are_compared :
    let left : Number := .rational ((9223372036854775807 : ℚ) / 2)
    let right : Number := .rational (-2 / 9223372036854775807)
    left.Canonical ∧ right.Canonical ∧ left.isComplex = false ∧ right.isComplex = false ∧
      ¬ InRange (9223372036854775807 * 9223372036854775807) ∧
      (left == right) = false ∧ left.valueEq right = false ∧ left.value? ≠ right.value? ∧
      left.compare? right = some .gt := by
  have leftCanonical : (Number.rational ((9223372036854775807 : ℚ) / 2)).Canonical :=
    ⟨by decide +kernel, by decide +kernel⟩
  have rightCanonical : (Number.rational (-2 / 9223372036854775807)).Canonical :=
    ⟨by decide +kernel, by decide +kernel⟩
  obtain ⟨leaves, -, byValue, order, -⟩ :=
    exact_equalities_coincide_and_order_is_linear leftCanonical rightCanonical rfl rfl
  obtain ⟨p, q, leftView, rightView, compared, -⟩ := order rfl rfl
  obtain rfl := Option.some.inj leftView
  obtain rfl := Option.some.inj rightView
  have greater : compare ((9223372036854775807 : ℚ) / 2) (-2 / 9223372036854775807) = .gt :=
    compare_gt_iff_gt.mpr (by norm_num)
  have different : (Number.rational ((9223372036854775807 : ℚ) / 2) ==
      Number.rational (-2 / 9223372036854775807)) = false := by decide +kernel
  have values := mt leaves.mpr (Bool.eq_false_iff.mp different)
  exact ⟨leftCanonical, rightCanonical, rfl, rfl, by decide, different,
    Bool.eq_false_iff.mpr (mt byValue.mp values), values, greater ▸ compared⟩

end Number

end SymbolicAlgebra
