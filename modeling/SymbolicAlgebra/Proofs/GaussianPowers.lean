import Mathlib.Algebra.Order.Field.Basic
import SymbolicAlgebra.Proofs.FractionArithmetic

/-!
# Exact integer powers

An exact integer power of an exact number is the power in the field of Gaussian
rationals.  Powers of integers and of the parts of fractions are computed from the most
significant digit of the exponent on, those of complex numbers from the least
significant one.
-/

namespace SymbolicAlgebra

namespace Number

/-! ## Real bases -/

theorem real_zpow (value : ℚ) (exponent : ℤ) :
    (⟨value, 0⟩ : GaussianRational) ^ exponent = ⟨value ^ exponent, 0⟩ :=
  (map_zpow₀ (algebraMap ℚ GaussianRational) value exponent).symm

theorem ofFraction_canonical {numerator denominator : Int} (numeratorInRange : InRange numerator)
    (denominatorInRange : InRange denominator) : (ofFraction numerator denominator).Canonical := by
  unfold ofFraction
  split
  · trivial
  · split
    · rename_i ratio computed
      obtain ⟨_, _, inRange⟩ := Ratio.ofInts?_eq_some numeratorInRange denominatorInRange computed
      exact (ofRatio_represents inRange).1
    · trivial

theorem powInt_canonical {base : Int} (inRange : InRange base) (exponent : Int) :
    (powInt base exponent).Canonical := by
  unfold powInt
  split
  · trivial
  · split
    · rcases powNat_cases inRange exponent.natAbs with ⟨power, powerInRange⟩ | ⟨rounded, power⟩
      · rw [power]
        split
        · trivial
        · rename_i value _ same
          cases same
          exact ofFraction_canonical inRange_one powerInRange
        · trivial
      · rw [power]
        trivial
    · rcases powNat_cases inRange exponent.toNat with ⟨power, powerInRange⟩ | ⟨rounded, power⟩
      · rw [power]
        exact powerInRange
      · rw [power]
        trivial

theorem powRatio_canonical {base : Rat} (inRange : Ratio.InRange base) (exponent : Int) :
    (powRatio base exponent).Canonical := by
  unfold powRatio
  split
  · trivial
  · obtain ⟨parts, partsEq, numeratorInRange, denominatorInRange⟩ : ∃ parts : Int × Int,
        (if exponent < 0 then ((base.den : Int), base.num) else (base.num, (base.den : Int))) =
          parts ∧ InRange parts.1 ∧ InRange parts.2 := by
      by_cases negative : exponent < 0
      · exact ⟨_, if_pos negative, inRange.2, inRange.1⟩
      · exact ⟨_, if_neg negative, inRange.1, inRange.2⟩
    simp only [partsEq]
    rcases powNat_cases numeratorInRange exponent.natAbs with ⟨top, topInRange⟩ | ⟨rounded, top⟩
    · rcases powNat_cases denominatorInRange exponent.natAbs with
        ⟨bottom, bottomInRange⟩ | ⟨rounded, bottom⟩
      · simp only [top, bottom]
        exact ofFraction_canonical topInRange bottomInRange
      · simp only [top, bottom]
        split
        · split <;> trivial
        · trivial
    · rcases powNat_cases denominatorInRange exponent.natAbs with
        ⟨bottom, bottomInRange⟩ | ⟨rounded, bottom⟩
      · simp only [top, bottom]
        split
        · split <;> trivial
        · trivial
      · simp only [top, bottom]
        split
        · split <;> trivial
        · trivial

/-! ## Complex bases -/

theorem mulComplexInt?_represents {z w product : Cartesian Int}
    (multiplied : mulComplexInt? z w = some product) :
    (InRange product.re ∧ InRange product.im) ∧
      (⟨product.re, product.im⟩ : GaussianRational) = ⟨z.re, z.im⟩ * ⟨w.re, w.im⟩ := by
  obtain ⟨reInRange, imInRange, re, im⟩ := mulComplexInt?_eq_some multiplied
  refine ⟨⟨reInRange, imInRange⟩, QuadraticAlgebra.ext ?_ ?_⟩
  · rw [re]
    simp [sub_eq_add_neg]
  · rw [im]
    simp

/-- Repeated squaring over the digits of an exponent, least significant first. -/
theorem powComplexIntDigits_eq {exponent count : Nat} {square start result : Cartesian Int}
    (bounded : exponent < 2 ^ count) (inRange : InRange start.re ∧ InRange start.im)
    (computed : powComplexIntDigits ((List.range count).map exponent.testBit) square start =
      some result) :
    (InRange result.re ∧ InRange result.im) ∧
      (⟨result.re, result.im⟩ : GaussianRational) =
        ⟨start.re, start.im⟩ * ⟨square.re, square.im⟩ ^ exponent := by
  induction count generalizing exponent square start with
  | zero =>
      obtain rfl : exponent = 0 := by simpa using bounded
      cases computed
      exact ⟨inRange, by rw [pow_zero, mul_one]⟩
  | succ count ih =>
      have digits : (List.range (count + 1)).map exponent.testBit =
          exponent.testBit 0 :: (List.range count).map (exponent / 2).testBit := by
        rw [List.range_succ_eq_map, List.map_cons, List.map_map]
        congr 1
        exact List.map_congr_left fun index _ => Nat.testBit_succ exponent index
      have halved : exponent / 2 < 2 ^ count := by
        rw [pow_succ] at bounded
        omega
      rw [digits, powComplexIntDigits, Nat.testBit_zero] at computed
      -- The digit decides whether the square at this place is a factor.
      obtain ⟨next, stepped, rest⟩ : ∃ next : Cartesian Int,
          ((InRange next.re ∧ InRange next.im) ∧ (⟨next.re, next.im⟩ : GaussianRational) =
            ⟨start.re, start.im⟩ * ⟨square.re, square.im⟩ ^ (exponent % 2)) ∧
          (if ((List.range count).map (exponent / 2).testBit).isEmpty then some next
            else (mulComplexInt? square square).bind fun doubled =>
              powComplexIntDigits ((List.range count).map (exponent / 2).testBit) doubled next) =
            some result := by
        rcases Nat.mod_two_eq_zero_or_one exponent with even | odd
        · rw [even] at computed ⊢
          exact ⟨start, ⟨inRange, by rw [pow_zero, mul_one]⟩, computed⟩
        · rw [odd] at computed ⊢
          obtain ⟨next, multiplied, rest⟩ := Option.bind_eq_some_iff.mp computed
          exact ⟨next, by rw [pow_one]; exact mulComplexInt?_represents multiplied, rest⟩
      have split : exponent = exponent % 2 + 2 * (exponent / 2) := by omega
      split at rest
      · rename_i empty
        cases rest
        obtain rfl : count = 0 := by simpa using empty
        have single : exponent % 2 = exponent := by omega
        rwa [single] at stepped
      · obtain ⟨doubled, squared, rest⟩ := Option.bind_eq_some_iff.mp rest
        obtain ⟨resultInRange, value⟩ := ih halved stepped.1 rest
        refine ⟨resultInRange, ?_⟩
        rw [value, stepped.2, (mulComplexInt?_represents squared).2]
        nth_rewrite 3 [split]
        rw [pow_add, pow_mul, pow_two, mul_assoc]

theorem powComplexInt_represents {base : Cartesian Int} {exponent : Nat}
    (exact : (powComplexInt base exponent).isExact = true) :
    (powComplexInt base exponent).Represents (⟨base.re, base.im⟩ ^ exponent) := by
  unfold powComplexInt at exact ⊢
  have digits : lowDigits exponent =
      (List.range (if exponent = 0 then 0 else exponent.log2 + 1)).map exponent.testBit := by
    unfold lowDigits
    split <;> rfl
  have bounded : exponent < 2 ^ (if exponent = 0 then 0 else exponent.log2 + 1) := by
    split
    · simp_all
    · exact Nat.lt_log2_self
  cases computed : powComplexIntDigits (lowDigits exponent) base ⟨1, 0⟩ with
  | none =>
      rw [computed] at exact
      dsimp only at exact
      rw [ofComplexFloat_isExact] at exact
      cases exact
  | some result =>
      rw [digits] at computed
      obtain ⟨⟨reInRange, imInRange⟩, value⟩ :=
        powComplexIntDigits_eq bounded ⟨inRange_one, inRange_zero⟩ computed
      have represents := ofComplexInt_represents reInRange imInRange
      rw [value] at represents
      have unit : (⟨((1 : Int) : ℚ), ((0 : Int) : ℚ)⟩ : GaussianRational) = 1 := by
        simp [QuadraticAlgebra.ext_iff, QuadraticAlgebra.re_one, QuadraticAlgebra.im_one]
      rwa [unit, one_mul] at represents

/-- An exact integer power of an exact number is the power in the field. -/
theorem Represents.pow_int {number : Number} {value : GaussianRational} {exponent : Int}
    (represents : number.Represents value)
    (exact : (number.pow (.int exponent)).isExact = true) :
    (number.pow (.int exponent)).Represents (value ^ exponent) := by
  obtain ⟨canonical, denotes⟩ := represents
  cases number with
  | int whole =>
      obtain rfl := Option.some.inj denotes
      obtain ⟨_, fraction⟩ := powInt_isFraction canonical exact
      exact ⟨powInt_canonical canonical exponent, by
        rw [real_zpow]
        exact fraction.value?⟩
  | rational ratio =>
      obtain rfl := Option.some.inj denotes
      obtain ⟨_, fraction⟩ := powRatio_isFraction canonical.1 exact
      exact ⟨powRatio_canonical canonical.1 exponent, by
        rw [real_zpow]
        exact fraction.value?⟩
  | complexInt parts =>
      obtain rfl := Option.some.inj denotes
      rw [Number.pow] at exact ⊢
      split
      · rename_i nonnegative
        rw [if_pos nonnegative] at exact
        have represents := powComplexInt_represents exact
        rwa [← zpow_natCast, Int.toNat_of_nonneg nonnegative] at represents
      · rename_i negative
        rw [if_neg negative, powFloat_isExact] at exact
        cases exact
  | complexRational parts =>
      have inexact := powFloat_isExact (.complexRational parts) (.int exponent)
      exact absurd (exact.symm.trans inexact) (by decide)
  | real _ | complexReal _ => cases denotes

/-- A fraction raised to any integer, and a complex integer raised to a nonnegative one: an
exact result is in canonical form and is the power of the base in the field of Gaussian
rationals. -/
theorem exact_power_is_field_power (exponent : Int) :
    (∀ ratio : Rat, (Number.rational ratio).Canonical →
      ((Number.rational ratio).pow (.int exponent)).isExact = true →
        ((Number.rational ratio).pow (.int exponent)).Represents (⟨ratio, 0⟩ ^ exponent)) ∧
      ∀ base : Cartesian Int, 0 ≤ exponent →
        ((Number.complexInt base).pow (.int exponent)).isExact = true →
          ((Number.complexInt base).pow (.int exponent)).Represents
            (⟨base.re, base.im⟩ ^ exponent) := by
  constructor
  · intro ratio canonical exact
    exact Represents.pow_int ⟨canonical, rfl⟩ exact
  · -- The base need not be in canonical form: its parts are only multiplied.
    intro base nonnegative exact
    rw [Number.pow, if_pos nonnegative] at exact ⊢
    have represents := powComplexInt_represents exact
    rwa [← zpow_natCast, Int.toNat_of_nonneg nonnegative] at represents

/-- The cube of the inverse of `-2/3`, and the cube of `1 - 2i`. -/
theorem exact_power_is_field_power_cubes :
    ((Number.rational (-2 / 3)).Canonical ∧
      ((Number.rational (-2 / 3)).pow (.int (-3))).Represents (⟨-2 / 3, 0⟩ ^ (-3 : Int))) ∧
      ((Number.complexInt ⟨1, -2⟩).pow (.int 3)).Represents (⟨(1 : Int), (-2 : Int)⟩ ^ (3 : Int)) :=
  have fraction : (Number.rational (-2 / 3)).Canonical := ⟨by decide +kernel, by decide +kernel⟩
  ⟨⟨fraction, (exact_power_is_field_power (-3)).1 _ fraction (by decide +kernel)⟩,
    (exact_power_is_field_power 3).2 _ (by decide) (by decide +kernel)⟩

end Number

end SymbolicAlgebra
