import Mathlib.Algebra.QuadraticAlgebra.Basic
import SymbolicAlgebra.Number.Arithmetic
import SymbolicAlgebra.Proofs.RatioArithmetic

/-!
# Exactness of the numeric tower

An exact number stands for an element of the field of Gaussian rationals.  An
operation of the tower is tried at several tiers, and at each exact tier it is
either refused or yields the result of the field, in normal form.  Double
precision is never left again: a result is exact only when both operands are.

The operations differ only in what they do at one tier, so the climb through
the tiers is dealt with once, for any operation that computes a function of the
field at each exact tier.
-/

namespace SymbolicAlgebra

/-- The field of Gaussian rationals, `ℚ` with a square root of `-1`. -/
abbrev GaussianRational : Type := QuadraticAlgebra ℚ (-1) 0

/-- No rational is a square root of `-1`, so this is a field. -/
instance no_root_of_neg_one : Fact (∀ root : ℚ, root ^ 2 ≠ -1 + 0 * root) :=
  ⟨fun root square => by nlinarith [sq_nonneg root]⟩

instance : CharZero GaussianRational := inferInstance

namespace Number

/-- The Gaussian rational that an exact number stands for. -/
def value? (number : Number) : Option GaussianRational :=
  number.toComplexRatio?.map fun z => ⟨z.re, z.im⟩

/-- The integers of an exact number are in range, whether or not the number is
in normal form. -/
def Bounded : Number → Prop
  | .int value => InRange value
  | .rational value => Ratio.InRange value
  | .complexInt value => InRange value.re ∧ InRange value.im
  | .complexRational value => Ratio.InRange value.re ∧ Ratio.InRange value.im
  | .real _ | .complexReal _ => True

/-- The number is the normal form of a Gaussian rational. -/
def Represents (number : Number) (value : GaussianRational) : Prop :=
  number.Canonical ∧ number.value? = some value

theorem Canonical.bounded {number : Number} (canonical : number.Canonical) : number.Bounded := by
  cases number with
  | int value => exact canonical
  | rational value => exact canonical.1
  | real value => trivial
  | complexInt value => exact ⟨canonical.1, canonical.2.1⟩
  | complexRational value => exact ⟨canonical.1, canonical.2.1⟩
  | complexReal value => trivial

theorem isExact_iff_value? {number : Number} :
    number.isExact = true ↔ ∃ value, number.value? = some value := by
  cases number <;> simp [isExact, value?, toComplexRatio?]

/-! ## Normalizing constructors -/

theorem ofRatio_represents {ratio : Rat} (inRange : Ratio.InRange ratio) :
    Represents (ofRatio ratio) ⟨ratio, 0⟩ := by
  unfold ofRatio Ratio.isInteger
  by_cases whole : ratio.den = 1
  · rw [if_pos (by simpa using whole)]
    refine ⟨inRange.1, ?_⟩
    simp [value?, toComplexRatio?, Rat.den_eq_one_iff _ |>.mp whole]
  · rw [if_neg (by simpa using whole)]
    exact ⟨⟨inRange, whole⟩, rfl⟩

theorem ofComplexInt_represents {re im : Int} (reInRange : InRange re) (imInRange : InRange im) :
    Represents (ofComplexInt re im) ⟨re, im⟩ := by
  unfold ofComplexInt
  split
  · rename_i zero
    exact ⟨reInRange, by simp [value?, toComplexRatio?, zero]⟩
  · rename_i nonzero
    exact ⟨⟨reInRange, imInRange, nonzero⟩, rfl⟩

theorem ofComplexRatio_represents {re im : Rat} (reInRange : Ratio.InRange re)
    (imInRange : Ratio.InRange im) : Represents (ofComplexRatio re im) ⟨re, im⟩ := by
  unfold ofComplexRatio
  split
  · rename_i zero
    rw [zero]
    exact ofRatio_represents reInRange
  · rename_i nonzero
    split
    · rename_i whole
      simp only [Ratio.isInteger, Bool.and_eq_true, beq_iff_eq] at whole
      refine ⟨⟨reInRange.1, imInRange.1, Rat.num_ne_zero.mpr nonzero⟩, ?_⟩
      simp [value?, toComplexRatio?, Rat.den_eq_one_iff _ |>.mp whole.1,
        Rat.den_eq_one_iff _ |>.mp whole.2]
    · rename_i broken
      simp only [Ratio.isInteger, Bool.and_eq_true, beq_iff_eq] at broken
      exact ⟨⟨reInRange, imInRange, nonzero, broken⟩, rfl⟩

/-! ## Views -/

theorem asInt?_view {number : Number} {value : Int} (view : number.asInt? = some value) :
    number.value? = some ⟨value, 0⟩ ∧ (number.Bounded → InRange value) := by
  cases number <;> simp_all [asInt?, value?, toComplexRatio?, Bounded]

theorem toRatio?_view {number : Number} {value : Rat} (view : number.toRatio? = some value) :
    number.value? = some ⟨value, 0⟩ ∧ (number.Bounded → Ratio.InRange value) := by
  cases number with
  | int whole =>
      obtain rfl := Option.some.inj view
      exact ⟨rfl, Ratio.inRange_intCast⟩
  | rational ratio =>
      obtain rfl := Option.some.inj view
      exact ⟨rfl, id⟩
  | real _ | complexInt _ | complexRational _ | complexReal _ => contradiction

theorem toComplexInt?_view {number : Number} {value : Cartesian Int}
    (view : number.toComplexInt? = some value) :
    number.value? = some ⟨value.re, value.im⟩ ∧
      (number.Bounded → InRange value.re ∧ InRange value.im) := by
  cases number with
  | int whole =>
      obtain rfl := Option.some.inj view
      exact ⟨by simp [value?, toComplexRatio?], fun bounded => ⟨bounded, inRange_zero⟩⟩
  | complexInt parts =>
      obtain rfl := Option.some.inj view
      exact ⟨rfl, id⟩
  | rational _ | real _ | complexRational _ | complexReal _ => contradiction

theorem toComplexRatio?_view {number : Number} {value : Cartesian Rat}
    (view : number.toComplexRatio? = some value) :
    number.value? = some ⟨value.re, value.im⟩ ∧
      (number.Bounded → Ratio.InRange value.re ∧ Ratio.InRange value.im) := by
  refine ⟨by simp [value?, view], fun bounded => ?_⟩
  have zeroInRange : Ratio.InRange 0 := by decide
  cases number with
  | int whole =>
      obtain rfl := Option.some.inj view
      exact ⟨Ratio.inRange_intCast bounded, zeroInRange⟩
  | rational ratio =>
      obtain rfl := Option.some.inj view
      exact ⟨bounded, zeroInRange⟩
  | complexInt parts =>
      obtain rfl := Option.some.inj view
      exact ⟨Ratio.inRange_intCast bounded.1, Ratio.inRange_intCast bounded.2⟩
  | complexRational parts =>
      obtain rfl := Option.some.inj view
      exact bounded
  | real _ | complexReal _ => contradiction

/-! ## The climb -/

namespace TierOperation

/-- At each exact tier the operation is refused, is inexact, or represents the
given function of its operands; at the tiers of doubles it is inexact. -/
structure Computes (operation : TierOperation)
    (result : GaussianRational → GaussianRational → GaussianRational) : Prop where
  integer : ∀ {a b : Int} {number : Number}, InRange a → InRange b →
    operation.integer a b = some number → number.isExact = true →
      Represents number (result ⟨a, 0⟩ ⟨b, 0⟩)
  rational : ∀ {a b : Rat} {number : Number}, Ratio.InRange a → Ratio.InRange b →
    operation.rational a b = some number → number.isExact = true →
      Represents number (result ⟨a, 0⟩ ⟨b, 0⟩)
  real : ∀ a b : Float, (operation.real a b).isExact = false
  complexInteger : ∀ {z w : Cartesian Int} {number : Number},
    InRange z.re ∧ InRange z.im → InRange w.re ∧ InRange w.im →
    operation.complexInteger z w = some number → number.isExact = true →
      Represents number (result ⟨z.re, z.im⟩ ⟨w.re, w.im⟩)
  complexRational : ∀ {z w : Cartesian Rat} {number : Number},
    Ratio.InRange z.re ∧ Ratio.InRange z.im → Ratio.InRange w.re ∧ Ratio.InRange w.im →
    operation.complexRational z w = some number → number.isExact = true →
      Represents number (result ⟨z.re, z.im⟩ ⟨w.re, w.im⟩)
  complexReal : ∀ z w : Cartesian Float, (operation.complexReal z w).isExact = false

/-- The result of the climb is NaN or comes from one of the tiers. -/
theorem run_eq (operation : TierOperation) (left right : Number) :
    operation.run left right = nan ∨
      ∃ tier, operation.at? left right tier = some (operation.run left right) := by
  unfold run climb
  cases found : (sharedTiers left right).findSome? (operation.at? left right) with
  | none => exact .inl rfl
  | some number =>
      obtain ⟨tier, _, succeeded⟩ := List.exists_of_findSome?_eq_some found
      exact .inr ⟨tier, succeeded⟩

variable {operation : TierOperation}
  {result : GaussianRational → GaussianRational → GaussianRational}

/-- An exact result at one tier comes from exact operands and, when these are in
range, represents the value of the function at their values. -/
theorem Computes.at?_represents (computes : operation.Computes result) {left right number : Number}
    {tier : Tier} (succeeded : operation.at? left right tier = some number)
    (exact : number.isExact = true) :
    ∃ z w, left.value? = some z ∧ right.value? = some w ∧
      (left.Bounded → right.Bounded → Represents number (result z w)) := by
  have inexact (z w : Cartesian Float) : operation.complexReal z w ≠ number := by
    intro equal
    have := computes.complexReal z w
    simp_all
  cases tier with
  | integer =>
      simp only [at?, Option.bind_eq_bind, Option.bind_eq_some_iff] at succeeded
      obtain ⟨a, leftView, b, rightView, computed⟩ := succeeded
      obtain ⟨leftValue, leftInRange⟩ := asInt?_view leftView
      obtain ⟨rightValue, rightInRange⟩ := asInt?_view rightView
      exact ⟨_, _, leftValue, rightValue, fun leftBounded rightBounded =>
        computes.integer (leftInRange leftBounded) (rightInRange rightBounded) computed exact⟩
  | rational =>
      simp only [at?, Option.bind_eq_bind, Option.bind_eq_some_iff] at succeeded
      obtain ⟨a, leftView, b, rightView, computed⟩ := succeeded
      obtain ⟨leftValue, leftInRange⟩ := toRatio?_view leftView
      obtain ⟨rightValue, rightInRange⟩ := toRatio?_view rightView
      exact ⟨_, _, leftValue, rightValue, fun leftBounded rightBounded =>
        computes.rational (leftInRange leftBounded) (rightInRange rightBounded) computed exact⟩
  | complexInteger =>
      simp only [at?, Option.bind_eq_bind, Option.bind_eq_some_iff] at succeeded
      obtain ⟨z, leftView, w, rightView, computed⟩ := succeeded
      obtain ⟨leftValue, leftInRange⟩ := toComplexInt?_view leftView
      obtain ⟨rightValue, rightInRange⟩ := toComplexInt?_view rightView
      exact ⟨_, _, leftValue, rightValue, fun leftBounded rightBounded =>
        computes.complexInteger (leftInRange leftBounded) (rightInRange rightBounded) computed
          exact⟩
  | complexRational =>
      simp only [at?, Option.bind_eq_bind, Option.bind_eq_some_iff] at succeeded
      obtain ⟨z, leftView, w, rightView, computed⟩ := succeeded
      obtain ⟨leftValue, leftInRange⟩ := toComplexRatio?_view leftView
      obtain ⟨rightValue, rightInRange⟩ := toComplexRatio?_view rightView
      exact ⟨_, _, leftValue, rightValue, fun leftBounded rightBounded =>
        computes.complexRational (leftInRange leftBounded) (rightInRange rightBounded) computed
          exact⟩
  | real =>
      simp only [at?, Option.bind_eq_bind, Option.bind_eq_some_iff, Option.some.injEq] at succeeded
      obtain ⟨a, _, b, _, rfl⟩ := succeeded
      simp [computes.real a b] at exact
  | boolean => exact absurd (Option.some.inj succeeded) (inexact _ _)
  | complexReal => exact absurd (Option.some.inj succeeded) (inexact _ _)
  | nonNumeric => exact absurd (Option.some.inj succeeded) (inexact _ _)

/-- An exact result comes from exact operands and represents the value of the
function at their values. -/
theorem Computes.run_represents (computes : operation.Computes result) {left right : Number}
    (exact : (operation.run left right).isExact = true) :
    ∃ z w, left.value? = some z ∧ right.value? = some w ∧
      (left.Bounded → right.Bounded → Represents (operation.run left right) (result z w)) := by
  rcases operation.run_eq left right with undefined | ⟨tier, succeeded⟩
  · rw [undefined] at exact
    contradiction
  · exact computes.at?_represents succeeded exact

end TierOperation

/-! ## The operations at each tier -/

theorem Represents.of_parts {number : Number} {re im : Rat} {value : GaussianRational}
    (represents : Represents number ⟨re, im⟩) (reEq : value.re = re) (imEq : value.im = im) :
    Represents number value := by
  subst reEq imEq
  exact represents

theorem ofComplexFloat_isExact (z : Cartesian Float) : (ofComplexFloat z).isExact = false := by
  unfold ofComplexFloat
  split <;> rfl

/-- An operation that treats the two parts of complex numbers alike computes
what it does to the parts.  Sums and differences are of this kind. -/
theorem computes_of_parts {operation : TierOperation}
    {result : GaussianRational → GaussianRational → GaussianRational}
    {whole : Int → Int → Int} {ratio? : Rat → Rat → Option Rat}
    (ratio?_eq_some : ∀ {a b ratio : Rat}, ratio? a b = some ratio →
      (result ⟨a, 0⟩ ⟨b, 0⟩).re = ratio ∧ Ratio.InRange ratio)
    (re_result : ∀ z w, (result z w).re = (result ⟨z.re, 0⟩ ⟨w.re, 0⟩).re)
    (im_result : ∀ z w, (result z w).im = (result ⟨z.im, 0⟩ ⟨w.im, 0⟩).re)
    (cast_whole : ∀ a b : Int, (result ⟨a, 0⟩ ⟨b, 0⟩).re = whole a b)
    (result_zero : (result ⟨0, 0⟩ ⟨0, 0⟩).re = 0)
    (integer : ∀ a b, operation.integer a b = (checked (whole a b)).map .int)
    (rational : ∀ a b, operation.rational a b = (ratio? a b).map ofRatio)
    (real : ∀ a b, (operation.real a b).isExact = false)
    (complexInteger : ∀ z w, operation.complexInteger z w = do
      pure (ofComplexInt (← checked (whole z.re w.re)) (← checked (whole z.im w.im))))
    (complexRational : ∀ z w, operation.complexRational z w = do
      pure (ofComplexRatio (← ratio? z.re w.re) (← ratio? z.im w.im)))
    (complexReal : ∀ z w, (operation.complexReal z w).isExact = false) :
    operation.Computes result where
  integer := by
    intro a b number _ _ computed _
    simp only [integer, Option.map_eq_some_iff, checked_eq_some_iff] at computed
    obtain ⟨_, ⟨inRange, rfl⟩, rfl⟩ := computed
    have represents : Represents (.int (whole a b)) ⟨whole a b, 0⟩ := ⟨inRange, rfl⟩
    exact represents.of_parts (cast_whole a b) (by rw [im_result, result_zero])
  rational := by
    intro a b number _ _ computed _
    simp only [rational, Option.map_eq_some_iff] at computed
    obtain ⟨ratio, accepted, rfl⟩ := computed
    obtain ⟨ratioEq, inRange⟩ := ratio?_eq_some accepted
    exact (ofRatio_represents inRange).of_parts ratioEq (by rw [im_result, result_zero])
  real := real
  complexInteger := by
    intro z w number _ _ computed _
    simp only [complexInteger, Option.bind_eq_bind, Option.bind_eq_some_iff, checked_eq_some_iff,
      Option.pure_def, Option.some.injEq] at computed
    obtain ⟨_, ⟨reInRange, rfl⟩, _, ⟨imInRange, rfl⟩, rfl⟩ := computed
    exact (ofComplexInt_represents reInRange imInRange).of_parts
      (by rw [re_result, cast_whole]) (by rw [im_result, cast_whole])
  complexRational := by
    intro z w number _ _ computed _
    simp only [complexRational, Option.bind_eq_bind, Option.bind_eq_some_iff,
      Option.pure_def, Option.some.injEq] at computed
    obtain ⟨re, reAccepted, im, imAccepted, rfl⟩ := computed
    obtain ⟨reEq, reInRange⟩ := ratio?_eq_some reAccepted
    obtain ⟨imEq, imInRange⟩ := ratio?_eq_some imAccepted
    exact (ofComplexRatio_represents reInRange imInRange).of_parts
      (by rw [re_result, reEq]) (by rw [im_result, imEq])
  complexReal := complexReal

theorem addition_computes : addition.Computes (· + ·) := by
  refine computes_of_parts (fun summed => ?_) ?_ ?_ ?_ ?_ (fun _ _ => rfl) (fun _ _ => rfl)
    (fun _ _ => rfl) (fun _ _ => rfl) (fun _ _ => rfl) (fun _ _ => ofComplexFloat_isExact _)
  · obtain ⟨rfl, inRange⟩ := Ratio.add?_eq_some summed
    exact ⟨by simp, inRange⟩
  all_goals simp

theorem subtraction_computes : subtraction.Computes (· - ·) := by
  refine computes_of_parts (fun subtracted => ?_) ?_ ?_ ?_ ?_ (fun _ _ => rfl) (fun _ _ => rfl)
    (fun _ _ => rfl) (fun _ _ => rfl) (fun _ _ => rfl) (fun _ _ => ofComplexFloat_isExact _)
  · obtain ⟨rfl, inRange⟩ := Ratio.sub?_eq_some subtracted
    exact ⟨by simp, inRange⟩
  all_goals simp

theorem re_mul (z w : GaussianRational) : (z * w).re = z.re * w.re - z.im * w.im := by
  rw [QuadraticAlgebra.re_mul]
  ring

theorem im_mul (z w : GaussianRational) : (z * w).im = z.re * w.im + z.im * w.re := by
  rw [QuadraticAlgebra.im_mul]
  ring

theorem mulComplexInt?_eq_some {z w product : Cartesian Int}
    (result : mulComplexInt? z w = some product) :
    InRange product.re ∧ InRange product.im ∧
      product.re = z.re * w.re - z.im * w.im ∧ product.im = z.re * w.im + z.im * w.re := by
  simp only [mulComplexInt?, Option.bind_eq_bind, Option.bind_eq_some_iff, checked_eq_some_iff,
    Option.pure_def, Option.some.injEq] at result
  obtain ⟨_, ⟨_, rfl⟩, _, ⟨_, rfl⟩, _, ⟨reInRange, rfl⟩, _, ⟨_, rfl⟩, _, ⟨_, rfl⟩, _,
    ⟨imInRange, rfl⟩, rfl⟩ := result
  exact ⟨reInRange, imInRange, rfl, rfl⟩

theorem multiplication_computes : multiplication.Computes (· * ·) where
  integer := by
    intro a b number _ _ computed _
    simp only [multiplication, Option.map_eq_some_iff, checked_eq_some_iff] at computed
    obtain ⟨_, ⟨inRange, rfl⟩, rfl⟩ := computed
    exact ⟨inRange, by simp [value?, toComplexRatio?]⟩
  rational := by
    intro a b number _ _ computed _
    simp only [multiplication, Option.map_eq_some_iff] at computed
    obtain ⟨product, multiplied, rfl⟩ := computed
    obtain ⟨rfl, inRange⟩ := Ratio.mul?_eq_some multiplied
    exact (ofRatio_represents inRange).of_parts (by simp) (by simp)
  real _ _ := rfl
  complexInteger := by
    intro z w number _ _ computed _
    simp only [multiplication, Option.map_eq_some_iff] at computed
    obtain ⟨product, multiplied, rfl⟩ := computed
    obtain ⟨reInRange, imInRange, reEq, imEq⟩ := mulComplexInt?_eq_some multiplied
    exact (ofComplexInt_represents reInRange imInRange).of_parts
      (by rw [re_mul, reEq]; push_cast; rfl) (by rw [im_mul, imEq]; push_cast; rfl)
  complexRational := by
    intro z w number _ _ computed _
    simp only [multiplication, Option.bind_eq_bind, Option.bind_eq_some_iff,
      Option.pure_def, Option.some.injEq] at computed
    obtain ⟨_, reRe, _, imIm, re, reDifference, _, reIm, _, imRe, im, imSum, rfl⟩ := computed
    obtain ⟨rfl, -⟩ := Ratio.mul?_eq_some reRe
    obtain ⟨rfl, -⟩ := Ratio.mul?_eq_some imIm
    obtain ⟨rfl, -⟩ := Ratio.mul?_eq_some reIm
    obtain ⟨rfl, -⟩ := Ratio.mul?_eq_some imRe
    obtain ⟨rfl, reInRange⟩ := Ratio.sub?_eq_some reDifference
    obtain ⟨rfl, imInRange⟩ := Ratio.add?_eq_some imSum
    exact (ofComplexRatio_represents reInRange imInRange).of_parts (re_mul _ _) (im_mul _ _)
  complexReal _ _ := ofComplexFloat_isExact _

theorem re_div (z w : GaussianRational) :
    (z / w).re = (z.re * w.re + z.im * w.im) / (w.re * w.re + w.im * w.im) := by
  rw [QuadraticAlgebra.div_def, re_mul, QuadraticAlgebra.inv_def]
  simp only [QuadraticAlgebra.norm_def, QuadraticAlgebra.re_smul, QuadraticAlgebra.im_smul,
    QuadraticAlgebra.re_star, QuadraticAlgebra.im_star, smul_eq_mul]
  ring

theorem im_div (z w : GaussianRational) :
    (z / w).im = (z.im * w.re - z.re * w.im) / (w.re * w.re + w.im * w.im) := by
  rw [QuadraticAlgebra.div_def, im_mul, QuadraticAlgebra.inv_def]
  simp only [QuadraticAlgebra.norm_def, QuadraticAlgebra.re_smul, QuadraticAlgebra.im_smul,
    QuadraticAlgebra.re_star, QuadraticAlgebra.im_star, smul_eq_mul]
  ring

theorem re_div_of_real (a : Rat) {b : Rat} (nonzero : b ≠ 0) :
    ((⟨a, 0⟩ : GaussianRational) / ⟨b, 0⟩).re = a / b := by
  rw [re_div]
  simp only [mul_zero, add_zero]
  exact mul_div_mul_right a b nonzero

theorem normSquaredInt?_eq_some {z : Cartesian Int} {square : Int}
    (result : normSquaredInt? z = some square) :
    InRange square ∧ square = z.re * z.re + z.im * z.im := by
  simp only [normSquaredInt?, Option.bind_eq_bind, Option.bind_eq_some_iff,
    checked_eq_some_iff] at result
  obtain ⟨_, ⟨_, rfl⟩, _, ⟨_, rfl⟩, inRange, rfl⟩ := result
  exact ⟨inRange, rfl⟩

theorem normSquaredRatio?_eq_some {z : Cartesian Rat} {square : Rat}
    (result : normSquaredRatio? z = some square) :
    Ratio.InRange square ∧ square = z.re * z.re + z.im * z.im := by
  simp only [normSquaredRatio?, Option.bind_eq_bind, Option.bind_eq_some_iff] at result
  obtain ⟨_, reSquared, _, imSquared, summed⟩ := result
  obtain ⟨rfl, -⟩ := Ratio.mul?_eq_some reSquared
  obtain ⟨rfl, -⟩ := Ratio.mul?_eq_some imSquared
  obtain ⟨rfl, inRange⟩ := Ratio.add?_eq_some summed
  exact ⟨inRange, rfl⟩

theorem division_computes : division.Computes (· / ·) where
  integer := by
    intro a b number aInRange bInRange computed exact
    simp only [division] at computed
    split at computed
    · obtain rfl := Option.some.inj computed
      contradiction
    obtain ⟨quotient, divided, rfl⟩ := Option.map_eq_some_iff.mp computed
    obtain ⟨rfl, nonzero, inRange⟩ := Ratio.ofInts?_eq_some aInRange bInRange divided
    have divisorNonzero : (b : Rat) ≠ 0 := by exact_mod_cast nonzero
    exact (ofRatio_represents inRange).of_parts (re_div_of_real a divisorNonzero)
      (by rw [im_div]; simp)
  rational := by
    intro a b number aInRange bInRange computed exact
    simp only [division] at computed
    split at computed
    · obtain rfl := Option.some.inj computed
      contradiction
    obtain ⟨quotient, divided, rfl⟩ := Option.map_eq_some_iff.mp computed
    obtain ⟨rfl, nonzero, inRange⟩ := Ratio.div?_eq_some aInRange bInRange divided
    exact (ofRatio_represents inRange).of_parts (re_div_of_real a nonzero) (by rw [im_div]; simp)
  real a b := by
    simp only [division]
    split <;> rfl
  complexInteger := by
    intro z w number _ _ computed exact
    simp only [division, Option.bind_eq_bind, Option.bind_eq_some_iff] at computed
    obtain ⟨square, squared, computed⟩ := computed
    obtain ⟨squareInRange, squareEq⟩ := normSquaredInt?_eq_some squared
    split at computed
    · obtain rfl := Option.some.inj computed
      contradiction
    simp only [Option.bind_eq_some_iff, checked_eq_some_iff, Option.pure_def,
      Option.some.injEq] at computed
    obtain ⟨_, ⟨_, rfl⟩, _, ⟨_, rfl⟩, _, ⟨reInRange, rfl⟩, _, ⟨_, rfl⟩, _, ⟨_, rfl⟩, _,
      ⟨imInRange, rfl⟩, re, reDivided, im, imDivided, rfl⟩ := computed
    obtain ⟨rfl, -, reInRange⟩ := Ratio.ofInts?_eq_some reInRange squareInRange reDivided
    obtain ⟨rfl, -, imInRange⟩ := Ratio.ofInts?_eq_some imInRange squareInRange imDivided
    exact (ofComplexRatio_represents reInRange imInRange).of_parts
      (by rw [re_div, squareEq]; push_cast; rfl) (by rw [im_div, squareEq]; push_cast; rfl)
  complexRational := by
    intro z w number _ _ computed exact
    simp only [division, Option.bind_eq_bind, Option.bind_eq_some_iff] at computed
    obtain ⟨square, squared, computed⟩ := computed
    obtain ⟨squareInRange, squareEq⟩ := normSquaredRatio?_eq_some squared
    split at computed
    · obtain rfl := Option.some.inj computed
      contradiction
    simp only [Option.bind_eq_some_iff, Option.pure_def, Option.some.injEq] at computed
    obtain ⟨_, reRe, _, imIm, _, reSum, _, imRe, _, reIm, _, imDifference, re, reDivided,
      im, imDivided, rfl⟩ := computed
    obtain ⟨rfl, -⟩ := Ratio.mul?_eq_some reRe
    obtain ⟨rfl, -⟩ := Ratio.mul?_eq_some imIm
    obtain ⟨rfl, -⟩ := Ratio.mul?_eq_some imRe
    obtain ⟨rfl, -⟩ := Ratio.mul?_eq_some reIm
    obtain ⟨rfl, reInRange⟩ := Ratio.add?_eq_some reSum
    obtain ⟨rfl, imInRange⟩ := Ratio.sub?_eq_some imDifference
    obtain ⟨rfl, -, reInRange⟩ := Ratio.div?_eq_some reInRange squareInRange reDivided
    obtain ⟨rfl, -, imInRange⟩ := Ratio.div?_eq_some imInRange squareInRange imDivided
    exact (ofComplexRatio_represents reInRange imInRange).of_parts
      (by rw [re_div, squareEq]) (by rw [im_div, squareEq])
  complexReal z w := by
    simp only [division]
    split
    · rfl
    · exact ofComplexFloat_isExact _

/-- Each exact tier answers a zero divisor with NaN. -/
theorem division_at?_zero {left right number : Number} {tier : Tier}
    (zero : right.value? = some 0) (succeeded : division.at? left right tier = some number) :
    number.isExact = false := by
  have complexReal := division_computes.complexReal left.toComplexFloat right.toComplexFloat
  cases tier with
  | integer =>
      simp only [TierOperation.at?, Option.bind_eq_bind, Option.bind_eq_some_iff] at succeeded
      obtain ⟨a, _, b, view, computed⟩ := succeeded
      obtain rfl : b = 0 := by
        simpa [zero, QuadraticAlgebra.ext_iff] using (asInt?_view view).1.symm
      obtain rfl := Option.some.inj computed
      rfl
  | rational =>
      simp only [TierOperation.at?, Option.bind_eq_bind, Option.bind_eq_some_iff] at succeeded
      obtain ⟨a, _, b, view, computed⟩ := succeeded
      obtain rfl : b = 0 := by
        simpa [zero, QuadraticAlgebra.ext_iff] using (toRatio?_view view).1.symm
      obtain rfl := Option.some.inj computed
      rfl
  | complexInteger =>
      simp only [TierOperation.at?, division, Option.bind_eq_bind,
        Option.bind_eq_some_iff] at succeeded
      obtain ⟨z, _, w, view, square, squared, computed⟩ := succeeded
      have parts : w.re = 0 ∧ w.im = 0 := by
        simpa [zero, QuadraticAlgebra.ext_iff] using (toComplexInt?_view view).1.symm
      have squareZero : square = 0 := by
        rw [(normSquaredInt?_eq_some squared).2, parts.1, parts.2, mul_zero, add_zero]
      rw [if_pos squareZero] at computed
      obtain rfl := Option.some.inj computed
      rfl
  | complexRational =>
      simp only [TierOperation.at?, division, Option.bind_eq_bind,
        Option.bind_eq_some_iff] at succeeded
      obtain ⟨z, _, w, view, square, squared, computed⟩ := succeeded
      have parts : w.re = 0 ∧ w.im = 0 := by
        simpa [zero, QuadraticAlgebra.ext_iff] using (toComplexRatio?_view view).1.symm
      have squareZero : square = 0 := by
        rw [(normSquaredRatio?_eq_some squared).2, parts.1, parts.2, mul_zero, add_zero]
      rw [if_pos squareZero] at computed
      obtain rfl := Option.some.inj computed
      rfl
  | real =>
      simp only [TierOperation.at?, Option.bind_eq_bind, Option.bind_eq_some_iff,
        Option.some.injEq] at succeeded
      obtain ⟨a, _, b, _, rfl⟩ := succeeded
      exact division_computes.real a b
  | boolean | complexReal | nonNumeric =>
      obtain rfl := Option.some.inj succeeded
      exact complexReal

theorem div_zero_isExact {left right : Number} (zero : right.value? = some 0) :
    (left.div right).isExact = false := by
  rcases division.run_eq left right with undefined | ⟨tier, succeeded⟩
  · exact congrArg isExact undefined
  · exact division_at?_zero zero succeeded

/-! ## Negation and conjugation -/

theorem neg_represents {number : Number} {value : GaussianRational} (canonical : number.Canonical)
    (denotes : number.value? = some value) (exact : number.neg.isExact = true) :
    Represents number.neg (-value) := by
  cases number with
  | int whole =>
      obtain rfl := Option.some.inj denotes
      cases negated : checked (-whole) with
      | none => simp [neg, negated, isExact] at exact
      | some result =>
          obtain ⟨inRange, rfl⟩ := checked_eq_some_iff.mp negated
          simp only [neg, negated]
          exact ⟨inRange, by simp [value?, toComplexRatio?]⟩
  | rational ratio =>
      obtain rfl := Option.some.inj denotes
      cases negated : Ratio.neg? ratio with
      | none => simp [neg, negated, isExact] at exact
      | some result =>
          obtain ⟨rfl, inRange⟩ := Ratio.neg?_eq_some canonical.1 negated
          simp only [neg, negated]
          exact ⟨⟨inRange, by simpa using canonical.2⟩,
            by simp [value?, toComplexRatio?]⟩
  | complexInt parts =>
      obtain rfl := Option.some.inj denotes
      cases reNegated : checked (-parts.re) with
      | none => simp [neg, reNegated, ofComplexFloat_isExact] at exact
      | some re =>
          cases imNegated : checked (-parts.im) with
          | none => simp [neg, reNegated, imNegated, ofComplexFloat_isExact] at exact
          | some im =>
              obtain ⟨reInRange, rfl⟩ := checked_eq_some_iff.mp reNegated
              obtain ⟨imInRange, rfl⟩ := checked_eq_some_iff.mp imNegated
              simp only [neg, reNegated, imNegated]
              exact (ofComplexInt_represents reInRange imInRange).of_parts (by simp) (by simp)
  | complexRational parts =>
      obtain rfl := Option.some.inj denotes
      cases reNegated : Ratio.neg? parts.re with
      | none => simp [neg, reNegated, ofComplexFloat_isExact] at exact
      | some re =>
          cases imNegated : Ratio.neg? parts.im with
          | none => simp [neg, reNegated, imNegated, ofComplexFloat_isExact] at exact
          | some im =>
              obtain ⟨rfl, reInRange⟩ := Ratio.neg?_eq_some canonical.1 reNegated
              obtain ⟨rfl, imInRange⟩ := Ratio.neg?_eq_some canonical.2.1 imNegated
              simp only [neg, reNegated, imNegated]
              exact (ofComplexRatio_represents reInRange imInRange).of_parts (by simp) (by simp)
  | real _ | complexReal _ => contradiction

theorem conj_represents {number : Number} {value : GaussianRational} (canonical : number.Canonical)
    (denotes : number.value? = some value) (exact : number.conj.isExact = true) :
    Represents number.conj (star value) := by
  cases number with
  | int whole =>
      obtain rfl := Option.some.inj denotes
      exact ⟨canonical, by simp [conj, value?, toComplexRatio?]⟩
  | rational ratio =>
      obtain rfl := Option.some.inj denotes
      exact ⟨canonical, by simp [conj, value?, toComplexRatio?]⟩
  | complexInt parts =>
      obtain rfl := Option.some.inj denotes
      cases negated : checked (-parts.im) with
      | none => simp [conj, negated, ofComplexFloat_isExact] at exact
      | some im =>
          obtain ⟨inRange, rfl⟩ := checked_eq_some_iff.mp negated
          simp only [conj, negated]
          exact (ofComplexInt_represents canonical.1 inRange).of_parts (by simp) (by simp)
  | complexRational parts =>
      obtain rfl := Option.some.inj denotes
      cases negated : Ratio.neg? parts.im with
      | none => simp [conj, negated, ofComplexFloat_isExact] at exact
      | some im =>
          obtain ⟨rfl, inRange⟩ := Ratio.neg?_eq_some canonical.2.1 negated
          simp only [conj, negated]
          exact (ofComplexRatio_represents canonical.1 inRange).of_parts (by simp) (by simp)
  | real _ | complexReal _ => contradiction

/-! ## The tower as a whole -/

/-- Exact results of the tower are the results of the field in normal form, no
exact number is divided by an exact zero, and exact results come from exact
operands only. -/
theorem exact_results_represent_values :
    (∀ (a b : Number) (z w : GaussianRational), a.Canonical → b.Canonical →
      a.value? = some z → b.value? = some w →
        ((a.add b).isExact = true → Represents (a.add b) (z + w)) ∧
        ((a.sub b).isExact = true → Represents (a.sub b) (z - w)) ∧
        ((a.mul b).isExact = true → Represents (a.mul b) (z * w)) ∧
        ((a.div b).isExact = true → Represents (a.div b) (z / w)) ∧
        (a.neg.isExact = true → Represents a.neg (-z)) ∧
        (a.conj.isExact = true → Represents a.conj (star z))) ∧
    (∀ a b : Number, a.isExact = true → b.value? = some 0 → (a.div b).isExact = false) ∧
    (∀ a b : Number, (a.add b).isExact = true ∨ (a.sub b).isExact = true ∨
      (a.mul b).isExact = true ∨ (a.div b).isExact = true →
        a.isExact = true ∧ b.isExact = true) := by
  refine ⟨?_, fun a b _ zero => div_zero_isExact zero, ?_⟩
  · intro a b z w aCanonical bCanonical aValue bValue
    have represents {operation : TierOperation}
        {result : GaussianRational → GaussianRational → GaussianRational}
        (computes : operation.Computes result) (exact : (operation.run a b).isExact = true) :
        Represents (operation.run a b) (result z w) := by
      obtain ⟨first, second, firstValue, secondValue, represents⟩ := computes.run_represents exact
      obtain rfl : z = first := Option.some.inj (aValue.symm.trans firstValue)
      obtain rfl : w = second := Option.some.inj (bValue.symm.trans secondValue)
      exact represents aCanonical.bounded bCanonical.bounded
    exact ⟨represents addition_computes, represents subtraction_computes,
      represents multiplication_computes, represents division_computes,
      neg_represents aCanonical aValue, conj_represents aCanonical aValue⟩
  · intro a b exact
    have operandsExact {operation : TierOperation}
        {result : GaussianRational → GaussianRational → GaussianRational}
        (computes : operation.Computes result) (exact : (operation.run a b).isExact = true) :
        a.isExact = true ∧ b.isExact = true := by
      obtain ⟨z, w, aValue, bValue, _⟩ := computes.run_represents exact
      exact ⟨isExact_iff_value?.mpr ⟨z, aValue⟩, isExact_iff_value?.mpr ⟨w, bValue⟩⟩
    rcases exact with sum | difference | product | quotient
    · exact operandsExact addition_computes sum
    · exact operandsExact subtraction_computes difference
    · exact operandsExact multiplication_computes product
    · exact operandsExact division_computes quotient

/-- A fraction divided by a complex integer climbs to the tier of complex
fractions and represents the quotient of the field. -/
theorem half_div_complexInt_represents :
    (Number.rational (1 / 2)).Canonical ∧ (Number.complexInt ⟨1, -3⟩).Canonical ∧
      Represents ((Number.rational (1 / 2)).div (.complexInt ⟨1, -3⟩))
        ((⟨1 / 2, 0⟩ : GaussianRational) / ⟨1, -3⟩) := by
  have half : (Number.rational (1 / 2)).Canonical := ⟨by decide +kernel, by decide +kernel⟩
  have parts : (Number.complexInt ⟨1, -3⟩).Canonical := ⟨by decide, by decide, by decide⟩
  have exact : ((Number.rational (1 / 2)).div (.complexInt ⟨1, -3⟩)).isExact = true := by
    decide +kernel
  have operations := exact_results_represent_values.1 _ _ ⟨1 / 2, 0⟩ ⟨1, -3⟩ half parts rfl
    (by simp [value?, toComplexRatio?])
  exact ⟨half, parts, operations.2.2.2.1 exact⟩

end Number

end SymbolicAlgebra
