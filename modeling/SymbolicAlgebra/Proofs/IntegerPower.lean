import Mathlib.Algebra.Field.Basic
import Mathlib.Algebra.Order.Ring.Int

/-!
# Integer powers in a ring

An element of a ring has all natural powers, and negative powers when it is
invertible.  The laws of powers hold wherever both sides are defined, which is
all that the identities for powers of trees rely on.
-/

namespace SymbolicAlgebra

variable {K : Type} [CommRing K]

/-- The value is the power of the base by an integer: any integer for an
invertible base, and natural ones for every base. -/
def IsPower (base : K) (exponent : Int) (value : K) : Prop :=
  (∃ unit : Kˣ, ↑unit = base ∧ ↑(unit ^ exponent) = value) ∨
    0 ≤ exponent ∧ base ^ exponent.toNat = value

namespace IsPower

variable {base value first second : K} {m n : Int}

/-- Powers of an invertible base are those of the group of units. -/
theorem eq_zpow {unit : Kˣ} (power : IsPower (unit : K) n value) : ↑(unit ^ n) = value := by
  rcases power with ⟨other, equal, powerEq⟩ | ⟨nonnegative, powerEq⟩
  · rwa [Units.ext equal] at powerEq
  · rw [← powerEq, ← Units.val_pow_eq_pow_val, ← zpow_natCast, Int.toNat_of_nonneg nonnegative]

/-- Powers of a base that is not invertible are natural ones. -/
theorem eq_pow (power : IsPower base n value) (singular : ¬ IsUnit base) :
    0 ≤ n ∧ base ^ n.toNat = value := by
  rcases power with ⟨unit, rfl, _⟩ | natural
  · exact absurd unit.isUnit singular
  · exact natural

theorem of_unit (unit : Kˣ) (n : Int) : IsPower (unit : K) n ↑(unit ^ n) := .inl ⟨unit, rfl, rfl⟩

theorem of_natural (base : K) (nonnegative : 0 ≤ n) : IsPower base n (base ^ n.toNat) :=
  .inr ⟨nonnegative, rfl⟩

theorem unique (power : IsPower base n first) (other : IsPower base n second) : first = second := by
  by_cases invertible : IsUnit base
  · obtain ⟨unit, rfl⟩ := invertible
    exact power.eq_zpow.symm.trans other.eq_zpow
  · exact (power.eq_pow invertible).2.symm.trans (other.eq_pow invertible).2

theorem zero (base : K) : IsPower base 0 1 := by simpa using of_natural base (le_refl 0)

theorem one (base : K) : IsPower base 1 base := by simpa using of_natural base (Int.one_nonneg)

theorem base_one (power : IsPower (1 : K) n value) : value = 1 := by
  rw [← Units.val_one] at power
  rw [← power.eq_zpow, one_zpow, Units.val_one]

theorem base_zero (power : IsPower (0 : K) n value) (positive : 0 < n) : value = 0 := by
  refine power.unique ?_
  simpa [Int.toNat_eq_zero, positive.not_ge] using of_natural (0 : K) positive.le

/-- A power of a base that is not invertible is invertible only when the
exponent is zero. -/
theorem exponent_eq_zero (power : IsPower base n value) (singular : ¬ IsUnit base)
    (invertible : IsUnit value) : n = 0 := by
  obtain ⟨nonnegative, rfl⟩ := power.eq_pow singular
  by_contra nonzero
  exact singular ((isUnit_pow_iff (by omega)).mp invertible)

theorem mul (power : IsPower base m first) (other : IsPower base n second) :
    IsPower base (m + n) (first * second) := by
  by_cases invertible : IsUnit base
  · obtain ⟨unit, rfl⟩ := invertible
    rw [← power.eq_zpow, ← other.eq_zpow, ← Units.val_mul, ← zpow_add]
    exact of_unit unit (m + n)
  · obtain ⟨mNonnegative, rfl⟩ := power.eq_pow invertible
    obtain ⟨nNonnegative, rfl⟩ := other.eq_pow invertible
    rw [← pow_add, ← Int.toNat_add mNonnegative nNonnegative]
    exact of_natural base (by omega)

theorem div {quotient : K} (power : IsPower base m first) (other : IsPower base n second)
    (invertible : IsUnit second) (divides : quotient * second = first) :
    IsPower base (m - n) quotient := by
  by_cases baseInvertible : IsUnit base
  · obtain ⟨unit, rfl⟩ := baseInvertible
    have equal : quotient = ↑(unit ^ (m - n)) := by
      apply invertible.mul_right_cancel
      rw [divides, ← power.eq_zpow, ← other.eq_zpow, ← Units.val_mul, ← zpow_add, sub_add_cancel]
    rw [equal]
    exact of_unit unit (m - n)
  · obtain rfl := other.exponent_eq_zero baseInvertible invertible
    obtain rfl := other.unique (zero base)
    rwa [sub_zero, ← mul_one quotient, divides]

/-- A negative power is the inverse of the opposite one. -/
theorem neg (power : IsPower base n value) (negative : n < 0) :
    ∃ inverse, IsPower base (-n) inverse ∧ IsUnit inverse ∧ value * inverse = 1 := by
  by_cases invertible : IsUnit base
  · obtain ⟨unit, rfl⟩ := invertible
    refine ⟨↑(unit ^ (-n)), of_unit unit (-n), Units.isUnit _, ?_⟩
    rw [← power.eq_zpow, ← Units.val_mul, ← zpow_add, add_neg_cancel, zpow_zero, Units.val_one]
  · exact absurd (power.eq_pow invertible).1 negative.not_ge

theorem pow (power : IsPower base m first) (other : IsPower first n second) :
    IsPower base (m * n) second := by
  by_cases invertible : IsUnit base
  · obtain ⟨unit, rfl⟩ := invertible
    obtain rfl := power.eq_zpow
    rw [← other.eq_zpow, ← zpow_mul]
    exact of_unit unit (m * n)
  · by_cases firstInvertible : IsUnit first
    · obtain rfl := power.exponent_eq_zero invertible firstInvertible
      obtain rfl := power.unique (zero base)
      rw [zero_mul, other.base_one]
      exact zero base
    · obtain ⟨mNonnegative, rfl⟩ := power.eq_pow invertible
      obtain ⟨nNonnegative, rfl⟩ := other.eq_pow firstInvertible
      rw [← pow_mul, ← Int.toNat_mul mNonnegative nNonnegative]
      exact of_natural base (Int.mul_nonneg mNonnegative nNonnegative)

/-- The sign of the base matters for odd exponents only. -/
theorem neg_base (power : IsPower (-base) n value) :
    IsPower base n (if n % 2 = 0 then value else -value) := by
  have sign : ∀ unit : Kˣ, (-unit) ^ n = if n % 2 = 0 then unit ^ n else -unit ^ n := by
    intro unit
    split
    · exact Even.neg_zpow (Int.even_iff.mpr ‹_›) unit
    · exact Odd.neg_zpow (Int.odd_iff.mpr (by omega)) unit
  rcases power with ⟨unit, equal, rfl⟩ | ⟨nonnegative, rfl⟩
  · obtain rfl : base = ↑(-unit) := by rw [Units.val_neg, equal, neg_neg]
    have value : (if n % 2 = 0 then ((unit ^ n : Kˣ) : K) else -↑(unit ^ n)) = ↑((-unit) ^ n) := by
      rw [sign unit]
      split <;> simp
    rw [value]
    exact of_unit (-unit) n
  · have value : (if n % 2 = 0 then (-base) ^ n.toNat else -(-base) ^ n.toNat) =
        base ^ n.toNat := by
      split
      · exact Even.neg_pow (Nat.even_iff.mpr (by omega)) base
      · rw [Odd.neg_pow (Nat.odd_iff.mpr (by omega)), neg_neg]
    rw [value]
    exact of_natural base nonnegative

/-- Powers are carried along by ring homomorphisms. -/
theorem map {L : Type} [CommRing L] (hom : K →+* L) (power : IsPower base n value) :
    IsPower (hom base) n (hom value) := by
  rcases power with ⟨unit, rfl, rfl⟩ | ⟨nonnegative, rfl⟩
  · exact .inl ⟨Units.map hom unit, rfl, by rw [← map_zpow, Units.coe_map, MonoidHom.coe_coe]⟩
  · exact .inr ⟨nonnegative, (map_pow hom base n.toNat).symm⟩

end IsPower

/-- In a field, integer powers are those of the field where they are defined. -/
theorem isPower_iff {F : Type} [Field F] {base value : F} {exponent : Int} :
    IsPower base exponent value ↔ (base ≠ 0 ∨ 0 ≤ exponent) ∧ base ^ exponent = value := by
  by_cases zero : base = 0
  · subst zero
    constructor
    · intro power
      obtain ⟨nonnegative, powerEq⟩ := power.eq_pow not_isUnit_zero
      refine ⟨.inr nonnegative, ?_⟩
      rw [← powerEq, ← zpow_natCast, Int.toNat_of_nonneg nonnegative]
    · rintro ⟨defined, rfl⟩
      have nonnegative : 0 ≤ exponent := by simpa using defined
      exact .inr ⟨nonnegative, by rw [← zpow_natCast, Int.toNat_of_nonneg nonnegative]⟩
  · constructor
    · intro power
      refine ⟨.inl zero, ?_⟩
      rw [← Units.val_mk0 zero] at power
      simpa using power.eq_zpow
    · rintro ⟨_, rfl⟩
      simpa using IsPower.of_unit (Units.mk0 base zero) exponent

end SymbolicAlgebra
