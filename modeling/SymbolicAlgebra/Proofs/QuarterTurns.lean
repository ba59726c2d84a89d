import Mathlib.Analysis.SpecialFunctions.Pow.Real
import SymbolicAlgebra.Proofs.ExactPowers

/-!
# Quarter turns

Exact powers of a real number are a magnitude together with a number of quarter turns in
the plane of complex numbers.  A power raises the magnitude to the exponent; an integer
exponent multiplies the turns, and the principal square root halves them.
-/

namespace SymbolicAlgebra

namespace Number

/-- A magnitude after some quarter turns in the plane of complex numbers. -/
def turned (magnitude : ℚ) (turns : ℕ) : GaussianRational :=
  ⟨magnitude, 0⟩ * ⟨0, 1⟩ ^ turns

/-- Four quarter turns are none. -/
theorem unit_pow_four : (⟨0, 1⟩ : GaussianRational) ^ 4 = 1 := by
  simp [pow_succ, QuadraticAlgebra.ext_iff, QuadraticAlgebra.re_one, QuadraticAlgebra.im_one]

theorem turned_zero (magnitude : ℚ) : turned magnitude 0 = ⟨magnitude, 0⟩ := by
  simp [turned]

theorem turned_one (magnitude : ℚ) : turned magnitude 1 = ⟨0, magnitude⟩ := by
  simp [turned]

theorem turned_two (magnitude : ℚ) : turned magnitude 2 = ⟨-magnitude, 0⟩ := by
  simp [turned, pow_succ]

theorem turned_three (magnitude : ℚ) : turned magnitude 3 = ⟨0, -magnitude⟩ := by
  simp [turned, pow_succ]

/-- Fewer than four turns of a number other than zero can be told apart. -/
theorem turned_injective {magnitude : ℚ} {turns otherTurns : ℕ} (nonzero : magnitude ≠ 0)
    (quarter : turns < 4) (otherQuarter : otherTurns < 4)
    (same : turned magnitude turns = turned magnitude otherTurns) : turns = otherTurns := by
  have parts : ∀ {count : ℕ}, count < 4 → count = 0 ∨ count = 1 ∨ count = 2 ∨ count = 3 := by
    omega
  have opposite : magnitude ≠ -magnitude := fun equal => nonzero (self_eq_neg.mp equal)
  rcases parts quarter with rfl | rfl | rfl | rfl <;>
    rcases parts otherQuarter with rfl | rfl | rfl | rfl <;>
    simp_all [turned_zero, turned_one, turned_two, turned_three, QuadraticAlgebra.ext_iff]

/-- An integer power multiplies the turns. -/
theorem turned_zpow (magnitude : ℚ) (turns : ℕ) (exponent : ℤ) :
    turned magnitude turns ^ exponent =
      turned (magnitude ^ exponent) (exponent * turns % 4).toNat := by
  have unit_ne_zero : (⟨0, 1⟩ : GaussianRational) ≠ 0 := by
    simp [QuadraticAlgebra.ext_iff]
  have fourth : (⟨0, 1⟩ : GaussianRational) ^ (4 : ℤ) = 1 := by exact_mod_cast unit_pow_four
  have unit_zpow (power : ℤ) :
      (⟨0, 1⟩ : GaussianRational) ^ power = ⟨0, 1⟩ ^ (power % 4).toNat := by
    obtain ⟨rest, same⟩ := Int.eq_ofNat_of_zero_le (Int.emod_nonneg power (by decide : (4 : ℤ) ≠ 0))
    nth_rewrite 1 [← Int.mul_ediv_add_emod power 4]
    rw [same, zpow_add₀ unit_ne_zero, zpow_mul, fourth, one_zpow, one_mul, zpow_natCast,
      Int.toNat_natCast]
  rw [turned, mul_zpow, real_zpow, ← zpow_natCast, ← zpow_mul, mul_comm (turns : ℤ), unit_zpow,
    turned]

/-! ## Magnitudes and turns -/

/-- The number is the normal form of a magnitude after fewer than four quarter turns,
and zero is not turned. -/
structure IsPolar (number : Number) (magnitude : ℚ) (turns : ℕ) : Prop where
  represents : number.Represents (turned magnitude turns)
  nonnegative : 0 ≤ magnitude
  quarter : turns < 4
  unturned : magnitude = 0 → turns = 0

/-- The turns of a power from those of the base, where an exponent that is not whole
is one half. -/
def turnsAfter (turns : ℕ) (exponent : ℚ) : ℕ :=
  if exponent.den = 1 then (exponent.num * turns % 4).toNat else turns / 2

theorem turnsAfter_int (turns : ℕ) (exponent : ℤ) :
    turnsAfter turns exponent = (exponent * turns % 4).toNat :=
  if_pos (Rat.den_intCast exponent)

theorem turnsAfter_half (turns : ℕ) : turnsAfter turns (1 / 2) = turns / 2 :=
  if_neg (by decide +kernel)

theorem isPolar_of_represents {number : Number} {value : ℚ}
    (represents : number.Represents ⟨value, 0⟩) :
    number.IsPolar |value| (if 0 ≤ value then 0 else 2) := by
  split
  · rename_i nonnegative
    refine ⟨?_, abs_nonneg value, by decide, fun _ => rfl⟩
    rwa [turned_zero, abs_of_nonneg nonnegative]
  · rename_i negative
    refine ⟨?_, abs_nonneg value, by decide, fun zero => ?_⟩
    · rwa [turned_two, abs_of_neg (not_le.mp negative), neg_neg]
    · exact absurd (abs_eq_zero.mp zero).ge negative

namespace IsPolar

variable {base : Number} {magnitude : ℚ} {turns : ℕ}

/-- The magnitude may be one above the range, as that of the least integer is. -/
theorem inRange (polar : base.IsPolar magnitude turns) : Ratio.InRange (-magnitude) := by
  have negated (inRange : Ratio.InRange magnitude) : Ratio.InRange (-magnitude) := by
    have above := Rat.num_nonneg.mpr polar.nonnegative
    obtain ⟨⟨_, greatest⟩, denominator⟩ := inRange
    rw [maxInt] at greatest
    rw [Ratio.InRange, Rat.num_neg_eq_neg_num, Rat.den_neg_eq_den]
    refine ⟨⟨?_, ?_⟩, denominator⟩ <;> simp only [minInt, maxInt] <;> omega
  have quarter := polar.quarter
  have parts := polar.represents.inRange
  obtain rfl | rfl | rfl | rfl : turns = 0 ∨ turns = 1 ∨ turns = 2 ∨ turns = 3 := by omega
  · rw [turned_zero] at parts
    exact negated parts.1
  · rw [turned_one] at parts
    exact negated parts.2
  · rw [turned_two] at parts
    exact parts.1
  · rw [turned_three] at parts
    exact parts.2

theorem pow_int (polar : base.IsPolar magnitude turns) {exponent : Int}
    (exact : (base.pow (.int exponent)).isExact = true) :
    (base.pow (.int exponent)).IsPolar (magnitude ^ exponent) (turnsAfter turns exponent) := by
  rw [turnsAfter_int]
  refine ⟨?_, zpow_nonneg polar.nonnegative exponent, by omega, fun zero => ?_⟩
  · have represents := polar.represents.pow_int exact
    rwa [turned_zpow] at represents
  · rw [polar.unturned (eq_zero_of_zpow_eq_zero zero)]
    simp

theorem sqrt (polar : base.IsPolar magnitude turns) (real : base.isComplex = false)
    (exact : base.sqrt.isExact = true) :
    ∃ root : ℚ, root * root = magnitude ∧ base.sqrt.IsPolar root (turns / 2) := by
  have fraction : ∃ value : ℚ, turned magnitude turns = ⟨value, 0⟩ ∧ base.IsFraction value := by
    obtain ⟨canonical, denotes⟩ := polar.represents
    cases base with
    | int whole =>
        exact ⟨whole, (Option.some.inj denotes).symm, rfl, canonical⟩
    | rational ratio => exact ⟨ratio, (Option.some.inj denotes).symm, rfl, canonical.1⟩
    | real _ => cases denotes
    | complexInt _ | complexRational _ | complexReal _ => cases real
  obtain ⟨value, same, fraction⟩ := fraction
  obtain ⟨root, nonnegative, square, represents⟩ := fraction.sqrt exact
  have quarter := polar.quarter
  -- A real number has an even number of turns.
  obtain rfl | rfl | rfl | rfl : turns = 0 ∨ turns = 1 ∨ turns = 2 ∨ turns = 3 := by omega
  · rw [turned_zero] at same
    obtain rfl : magnitude = value := congrArg QuadraticAlgebra.re same
    rw [abs_of_nonneg polar.nonnegative] at square
    rw [if_pos polar.nonnegative, ← turned_zero] at represents
    exact ⟨root, square, represents, nonnegative, by decide, fun _ => rfl⟩
  · rw [turned_one] at same
    exact absurd (polar.unturned (congrArg QuadraticAlgebra.im same)) (by decide)
  · rw [turned_two] at same
    obtain rfl : -magnitude = value := congrArg QuadraticAlgebra.re same
    have positive : 0 < magnitude :=
      polar.nonnegative.lt_of_ne fun zero => absurd (polar.unturned zero.symm) (by decide)
    rw [abs_neg, abs_of_pos positive] at square
    rw [if_neg (not_le.mpr (neg_neg_of_pos positive)), ← turned_one] at represents
    refine ⟨root, square, represents, nonnegative, by decide, ?_⟩
    rintro rfl
    exact absurd square.symm (by simpa using positive.ne')
  · rw [turned_three] at same
    exact absurd (polar.unturned (neg_eq_zero.mp (congrArg QuadraticAlgebra.im same))) (by decide)

/-- An exact power raises the magnitude to the exponent. -/
theorem pow (polar : base.IsPolar magnitude turns) {exponent : Number} {value : ℚ}
    (view : exponent.toRatio? = some value) (exact : (base.pow exponent).isExact = true) :
    ∃ power : ℚ, (base.pow exponent).IsPolar power (turnsAfter turns value) ∧
      (power : ℝ) = (magnitude : ℝ) ^ (value : ℝ) := by
  rcases exponent_of_isExact exact with ⟨whole, rfl⟩ | ⟨rfl, real, root⟩
  · obtain rfl : (whole : ℚ) = value := Option.some.inj view
    refine ⟨_, polar.pow_int exact, ?_⟩
    rw [Rat.cast_zpow, Rat.cast_intCast, Real.rpow_intCast]
  · obtain rfl : 1 / 2 = value := Option.some.inj view
    rw [root] at exact ⊢
    rw [turnsAfter_half]
    obtain ⟨power, square, isPolar⟩ := polar.sqrt real exact
    refine ⟨power, isPolar, ?_⟩
    have nonnegative : (0 : ℝ) ≤ power := by exact_mod_cast isPolar.nonnegative
    rw [← square]
    push_cast
    rw [← Real.sqrt_eq_rpow, Real.sqrt_mul_self nonnegative]

/-- Numbers of one magnitude are equal when they are turned alike. -/
theorem eq_iff {other : Number} {otherTurns : ℕ} (polar : base.IsPolar magnitude turns)
    (otherPolar : other.IsPolar magnitude otherTurns) : base = other ↔ turns = otherTurns := by
  constructor
  · rintro rfl
    have same : turned magnitude turns = turned magnitude otherTurns :=
      Option.some.inj (polar.represents.2.symm.trans otherPolar.represents.2)
    by_cases zero : magnitude = 0
    · rw [polar.unturned zero, otherPolar.unturned zero]
    · exact turned_injective zero polar.quarter otherPolar.quarter same
  · rintro rfl
    rw [polar.represents.eq_ofComplexRatio, otherPolar.represents.eq_ofComplexRatio]

/-- Numbers of one magnitude are turned into each other. -/
theorem exists_turns {other : Number} {otherTurns : ℕ} (polar : base.IsPolar magnitude turns)
    (otherPolar : other.IsPolar magnitude otherTurns) :
    ∃ (turns : ℕ) (z : GaussianRational), other.value? = some z ∧
      base.value? = some (⟨0, 1⟩ ^ turns * z) := by
  refine ⟨turns + 3 * otherTurns, _, otherPolar.represents.2, ?_⟩
  have full : turns + 3 * otherTurns + otherTurns = turns + 4 * otherTurns := by omega
  rw [polar.represents.2, turned, turned, mul_left_comm, ← pow_add, full, pow_add, pow_mul,
    unit_pow_four, one_pow, mul_one]

end IsPolar

theorem turnsAfter_zero (exponent : ℚ) : turnsAfter 0 exponent = 0 := by
  unfold turnsAfter
  split
  · simp
  · rfl

theorem isPolar_one : (Number.int 1).IsPolar 1 0 := by
  refine ⟨⟨inRange_one, ?_⟩, zero_le_one, by decide, fun _ => rfl⟩
  rw [turned_zero]
  exact congrArg some (QuadraticAlgebra.ext Int.cast_one rfl)

/-- Exact powers of one are one. -/
theorem int_one_pow {exponent : Number} (exact : ((Number.int 1).pow exponent).isExact = true) :
    (Number.int 1).pow exponent = .int 1 := by
  obtain ⟨value, view⟩ := exists_toRatio?_of_pow exact
  obtain ⟨power, polar, equal⟩ := isPolar_one.pow view exact
  rw [Rat.cast_one, Real.one_rpow] at equal
  obtain rfl : power = 1 := by exact_mod_cast equal
  rw [turnsAfter_zero] at polar
  exact (polar.eq_iff isPolar_one).mpr rfl

/-! ## Bounds on exponents -/

/-- Fractions of which equal powers by coprime exponents are taken are powers of one
fraction. -/
theorem exists_common_root {base power : ℚ} {p : ℤ} {q : ℕ} (positive : 0 < base)
    (powerPositive : 0 < power) (coprime : IsCoprime p q) (equal : power ^ q = base ^ p) :
    ∃ root : ℚ, 0 < root ∧ base = root ^ q ∧ power = root ^ p := by
  obtain ⟨s, t, bezout⟩ := coprime
  have equal : power ^ (q : ℤ) = base ^ p := by exact_mod_cast equal
  refine ⟨power ^ s * base ^ t, by positivity, ?_, ?_⟩
  · calc base = base ^ (s * p + t * q) := by rw [bezout, zpow_one]
      _ = (base ^ p) ^ s * (base ^ t) ^ q := by
        rw [zpow_add₀ positive.ne', mul_comm s, zpow_mul, zpow_mul, zpow_natCast]
      _ = (power ^ s * base ^ t) ^ q := by
        rw [← equal, mul_pow, ← zpow_mul, mul_comm _ s, zpow_mul, zpow_natCast]
  · calc power = power ^ (s * p + t * q) := by rw [bezout, zpow_one]
      _ = (power ^ s) ^ p * (power ^ (q : ℤ)) ^ t := by
        rw [zpow_add₀ powerPositive.ne', zpow_mul, mul_comm t, zpow_mul]
      _ = (power ^ s * base ^ t) ^ p := by
        rw [equal, mul_zpow, ← zpow_mul base, mul_comm p, zpow_mul base]

/-- Powers of a fraction other than one leave the range soon. -/
theorem exponent_lt_of_inRange {root : ℚ} {exponent : ℕ} (positive : 0 < root) (notOne : root ≠ 1)
    (inRange : Ratio.InRange (-root ^ exponent)) : exponent < 64 := by
  have small {part : ℕ} (large : 2 ≤ part) (bounded : part ^ exponent ≤ 2 ^ 63) :
      exponent < 64 := by
    have lower : 2 ^ exponent ≤ part ^ exponent := Nat.pow_le_pow_left large exponent
    exact Nat.lt_succ_of_le ((Nat.pow_le_pow_iff_right (by decide)).mp (lower.trans bounded))
  obtain ⟨top, same⟩ := Int.eq_ofNat_of_zero_le (Rat.num_pos.mpr positive).le
  obtain ⟨⟨least, _⟩, _, greatest⟩ := inRange
  rw [Rat.num_neg_eq_neg_num, Rat.num_pow, same, minInt] at least
  rw [Rat.den_neg_eq_den, Rat.den_pow, maxInt] at greatest
  by_cases larger : 2 ≤ top
  · apply small larger
    zify
    omega
  · refine @small root.den ?_ (by omega)
    have bottom := root.den_pos
    have above := Rat.num_pos.mpr positive
    by_contra smaller
    refine notOne (Rat.ext ?_ ?_)
    · rw [Rat.num_one]
      omega
    · rw [Rat.den_one]
      omega

/-- A fraction other than one and an exact power of it leave no room for an exponent
out of range. -/
theorem inRange_exponent {base power exponent : ℚ} (positive : 0 < base) (notOne : base ≠ 1)
    (baseInRange : Ratio.InRange (-base)) (powerInRange : Ratio.InRange (-power))
    (equal : (power : ℝ) = (base : ℝ) ^ (exponent : ℝ)) : Ratio.InRange exponent := by
  have realPositive : (0 : ℝ) < base := by exact_mod_cast positive
  have powerPositive : 0 < power := by
    have : (0 : ℝ) < power := equal ▸ Real.rpow_pos_of_pos realPositive _
    exact_mod_cast this
  have cleared : power ^ exponent.den = base ^ exponent.num := by
    have : (power : ℝ) ^ exponent.den = (base : ℝ) ^ exponent.num := by
      rw [equal, ← Real.rpow_natCast, ← Real.rpow_mul realPositive.le, ← Real.rpow_intCast]
      congr 1
      exact_mod_cast Rat.mul_den_eq_num exponent
    exact_mod_cast this
  have coprime : IsCoprime exponent.num exponent.den :=
    Int.isCoprime_iff_gcd_eq_one.mpr exponent.reduced
  obtain ⟨root, rootPositive, baseEq, powerEq⟩ :=
    exists_common_root positive powerPositive coprime cleared
  have rootNotOne : root ≠ 1 := by
    rintro rfl
    exact notOne (by rw [baseEq, one_pow])
  have bottom : exponent.den < 64 :=
    exponent_lt_of_inRange rootPositive rootNotOne (baseEq ▸ baseInRange)
  have top : exponent.num.natAbs < 64 := by
    obtain ⟨size, same | same⟩ := exponent.num.eq_nat_or_neg
    · rw [same, zpow_natCast] at powerEq
      have := exponent_lt_of_inRange rootPositive rootNotOne (powerEq ▸ powerInRange)
      omega
    · rw [same, zpow_neg, zpow_natCast, ← inv_pow] at powerEq
      have := exponent_lt_of_inRange (inv_pos.mpr rootPositive) (inv_ne_one.mpr rootNotOne)
        (powerEq ▸ powerInRange)
      omega
  refine ⟨⟨?_, ?_⟩, ⟨?_, ?_⟩⟩ <;> simp only [minInt, maxInt] <;> omega

end Number

end SymbolicAlgebra
