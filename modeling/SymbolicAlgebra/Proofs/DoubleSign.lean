import Mathlib
import SymbolicAlgebra.Number.Arithmetic

/-!
# Signs of doubles

The sign of a double is a bit of its own, which negation flips and which rounding
keeps.  What the arithmetic of trees needs of doubles follows from this: the
negative of a negative double is not negative, also when the double stands for
an integer or a fraction that has no exact negative, and equal doubles are on the
same side of zero.
-/

namespace SymbolicAlgebra

namespace Double

open Float.Model
open Float.Model.UnpackedFloat

variable {sign other : Sign} {value factor : UnpackedFloat}

/-- The sign of a value that is a number. -/
def HasSign (sign : Sign) : UnpackedFloat → Prop
  | .infinity own | .zero own | .finite own _ _ _ => own = sign
  | .notANumber => True

theorem unpackSign_packComponents {spec : Format} (exponent : BitVec spec.exponentBits)
    (mantissa : BitVec spec.mantissaBitsWithoutImplicit) :
    unpackSign (packComponents spec sign exponent mantissa) = sign.toBitVec := by
  apply BitVec.eq_of_getLsbD_eq
  intro index inBounds
  obtain rfl : index = 0 := by omega
  simp [unpackSign, packComponents, BitVec.getLsbD_append, BitVec.getElem_append]

theorem hasSign_unpack_packComponents {spec : Format} (exponent : BitVec spec.exponentBits)
    (mantissa : BitVec spec.mantissaBitsWithoutImplicit) :
    HasSign sign (UnpackedFloat.unpack spec (packComponents spec sign exponent mantissa)) := by
  have same : Sign.ofBitVec sign.toBitVec = sign := by cases sign <;> rfl
  simp only [UnpackedFloat.unpack, unpackSign_packComponents, same]
  repeat' split
  all_goals trivial

theorem unpack_pack_notANumber : (Float.Model.pack .notANumber).unpack = .notANumber := rfl

theorem HasSign.unpack_pack (hasSign : HasSign sign value) :
    HasSign sign (Float.Model.pack value).unpack := by
  cases value with
  | notANumber =>
      rw [unpack_pack_notANumber]
      trivial
  | infinity own => exact hasSign ▸ hasSign_unpack_packComponents _ _
  | zero own => exact hasSign ▸ hasSign_unpack_packComponents _ _
  | finite own mantissa exponent positive =>
      obtain rfl : own = sign := hasSign
      simp only [Float.Model.pack, Float.Model.unpack, UnpackedFloat.pack]
      repeat' split
      all_goals exact hasSign_unpack_packComponents _ _

theorem hasSign_roundWithAccuracy {spec : Format} (mantissa : Nat) (exponent : Int)
    (accuracy : Accuracy) :
    HasSign sign (roundWithAccuracy spec sign mantissa exponent accuracy) := by
  simp only [roundWithAccuracy]
  split <;> rfl

theorem HasSign.mul {spec : Format} (hasSign : HasSign sign value)
    (otherHasSign : HasSign other factor) :
    HasSign (sign * other) (UnpackedFloat.mul spec value factor) := by
  cases value <;> cases factor <;>
    first
    | trivial
    | (cases hasSign; cases otherHasSign; first | rfl | exact hasSign_roundWithAccuracy _ _ _)

theorem HasSign.div {spec : Format} (hasSign : HasSign sign value)
    (otherHasSign : HasSign other factor) :
    HasSign (sign / other) (UnpackedFloat.div spec value factor) := by
  cases value <;> cases factor <;>
    first
    | trivial
    | (cases hasSign; cases otherHasSign; first | rfl | exact hasSign_roundWithAccuracy _ _ _)

theorem HasSign.neg (hasSign : HasSign sign value) : HasSign (-sign) value.neg := by
  cases value <;> first | trivial | exact congrArg _ hasSign

theorem hasSign_ofScientific (spec : Format) (mantissa : Nat) (exponent : Int) :
    HasSign .positive (UnpackedFloat.ofScientific spec mantissa exponent) := by
  have positive {mantissa : Nat} {exponent : Int} (isPositive : 0 < mantissa) :
      HasSign .positive (.finite .positive mantissa exponent isPositive) := rfl
  unfold UnpackedFloat.ofScientific
  split
  · exact (rfl : Sign.positive = .positive)
  split
  · exact (rfl : Sign.positive = .positive)
  split
  · exact (rfl : Sign.positive = .positive)
  split
  · exact (positive _).mul (positive _)
  · exact (positive _).div (positive _)

theorem hasSign_modelOfNat (number : Nat) :
    HasSign .positive (Float.Model.ofNat number).unpack := by
  apply HasSign.unpack_pack
  unfold UnpackedFloat.ofNat UnpackedFloat.ofInt UnpackedFloat.normalize
  split
  · rename_i negative
    rw [Int.compare_eq_lt] at negative
    omega
  · exact (rfl : Sign.positive = .positive)
  · exact hasSign_roundWithAccuracy _ _ _

/-- Natural numbers are rounded to doubles without a minus sign. -/
theorem hasSign_ofNat (number : Nat) : HasSign .positive (Float.ofNat number).toModel.unpack := by
  have one : HasSign .positive (Float.ofBits 0x3FF0000000000000).toModel.unpack :=
    HasSign.unpack_pack rfl
  change HasSign .positive (Float.ofScientific number false 0).toModel.unpack
  unfold Float.ofScientific
  split
  · exact ((hasSign_modelOfNat _).mul one).unpack_pack
  · exact (hasSign_ofScientific _ _ _).unpack_pack

/-- Negative integers are rounded to doubles with a minus sign. -/
theorem hasSign_ofInt {number : Int} (negative : number < 0) :
    HasSign .negative (Float.ofInt number).toModel.unpack := by
  cases number with
  | ofNat number => exact absurd negative (Int.not_lt.mpr (Int.natCast_nonneg number))
  | negSucc number => exact (hasSign_ofNat _).neg.unpack_pack

theorem unpack_zero : (0 : Float).toModel.unpack = .zero .positive := rfl

theorem lt_zero_iff {value : Float} :
    value < 0 ↔ UnpackedFloat.compare value.toModel.unpack (.zero .positive) = some .lt := by
  change decide (value.toModel < (0 : Float).toModel) = true ↔ _
  rw [decide_eq_true_iff]
  change (value.toModel.unpack.compare (0 : Float).toModel.unpack == some .lt) = true ↔ _
  rw [unpack_zero, beq_iff_eq]

theorem HasSign.not_lt_zero {value : Float} (positive : HasSign .positive value.toModel.unpack) :
    ¬value < 0 := by
  rw [lt_zero_iff]
  cases unpacked : value.toModel.unpack <;> rw [unpacked] at positive <;> cases positive <;>
    simp [UnpackedFloat.compare]

theorem hasSign_of_lt_zero {value : Float} (negative : value < 0) :
    HasSign .negative value.toModel.unpack := by
  rw [lt_zero_iff] at negative
  revert negative
  generalize value.toModel.unpack = unpacked
  intro negative
  cases unpacked with
  | notANumber => trivial
  | zero sign => simp [UnpackedFloat.compare] at negative
  | infinity sign => cases sign <;> first | rfl | simp [UnpackedFloat.compare] at negative
  | finite sign => cases sign <;> first | rfl | simp [UnpackedFloat.compare] at negative

theorem isNaN_of_lt_zero {value : Float} (negative : value < 0) : value.isNaN = false := by
  rw [lt_zero_iff] at negative
  change value.toModel.unpack.isNaN = false
  cases unpacked : value.toModel.unpack with
  | notANumber => simp [unpacked, UnpackedFloat.compare] at negative
  | _ => rfl

/-- A value with a minus sign has a negative that is not below zero. -/
theorem HasSign.not_neg_lt_zero {value : Float}
    (negative : HasSign .negative value.toModel.unpack) : ¬-value < 0 :=
  HasSign.not_lt_zero (HasSign.unpack_pack negative.neg)

/-- A double that equals another is a number. -/
theorem isNaN_of_beq {first second : Float} (equal : (first == second) = true) :
    second.isNaN = false := by
  change (first.toModel.unpack.compare second.toModel.unpack == some .eq) = true at equal
  change second.toModel.unpack.isNaN = false
  cases unpacked : second.toModel.unpack with
  | notANumber =>
      rw [unpacked] at equal
      cases other : first.toModel.unpack <;> simp [other, UnpackedFloat.compare] at equal
  | _ => rfl

/-- A double that is a number equals itself. -/
theorem beq_self {value : Float} (defined : value.isNaN = false) : (value == value) = true := by
  change (value.toModel.unpack.compare value.toModel.unpack == some .eq) = true
  change value.toModel.unpack.isNaN = false at defined
  generalize value.toModel.unpack = unpacked at defined
  rw [beq_iff_eq]
  cases unpacked with
  | notANumber => cases defined
  | zero sign => rfl
  | infinity sign => cases sign <;> rfl
  | finite sign => cases sign <;> simp [UnpackedFloat.compare]

theorem lt_zero_congr {first second : Float} (equal : (first == second) = true) :
    first < 0 ↔ second < 0 := by
  have compared : UnpackedFloat.compare first.toModel.unpack second.toModel.unpack = some .eq := by
    change (first.toModel.unpack.compare second.toModel.unpack == some .eq) = true at equal
    rwa [beq_iff_eq] at equal
  rw [lt_zero_iff, lt_zero_iff]
  generalize first.toModel.unpack = x, second.toModel.unpack = y at compared
  rcases x with (_ | _) | _ | (_ | _) | ⟨_ | _, _, _, _⟩ <;>
    rcases y with (_ | _) | _ | (_ | _) | ⟨_ | _, _, _, _⟩ <;>
    first | exact Iff.rfl | cases compared

end Double

namespace Number

variable {number other : Number}

/-- The negative of a negative number is real and not negative. -/
theorem neg_of_isNegative (negative : number.isNegative = true) :
    number.neg.isComplex = false ∧ number.neg.isNegative = false := by
  cases number with
  | int value =>
      have below : value < 0 := by simpa [isNegative] using negative
      rw [neg]
      cases inRange : checked (-value) with
      | none =>
          have above := (Double.hasSign_ofInt below).not_neg_lt_zero
          exact ⟨rfl, by simpa [isNegative] using above⟩
      | some negated =>
          obtain ⟨_, rfl⟩ := checked_eq_some_iff.mp inRange
          exact ⟨rfl, by simp only [isNegative, decide_eq_false_iff_not]; omega⟩
  | rational value =>
      have below : value.num < 0 := by simpa [isNegative] using negative
      rw [neg, Ratio.neg?]
      cases checked (-value.num) with
      | none =>
          have rounded : Double.HasSign .negative (Ratio.toFloat value).toModel.unpack :=
            ((Double.hasSign_ofInt below).div (Double.hasSign_ofNat _)).unpack_pack
          exact ⟨rfl, by simpa [isNegative] using rounded.not_neg_lt_zero⟩
      | some _ =>
          refine ⟨rfl, ?_⟩
          change decide ((-value).num < 0) = false
          rw [Rat.neg_num, decide_eq_false_iff_not]
          omega
  | real value =>
      have below : value < 0 := by simpa [isNegative] using negative
      have above := (Double.hasSign_of_lt_zero below).not_neg_lt_zero
      exact ⟨rfl, by simpa [neg, isNegative] using above⟩
  | _ => cases negative

theorem isNegative_of_isMinusOne (minusOne : number.isMinusOne = true) :
    number.isNegative = true := by
  cases number with
  | int value =>
      obtain rfl : value = -1 := by simpa [isMinusOne] using minusOne
      rfl
  | real value =>
      have below : (-1 : Float) < 0 := by decide +kernel
      simpa [isNegative] using (Double.lt_zero_congr minusOne).mpr below
  | _ => cases minusOne

theorem isNaN_of_isNegative (negative : number.isNegative = true) : number.isNaN = false := by
  cases number with
  | real value => exact Double.isNaN_of_lt_zero (by simpa [isNegative] using negative)
  | _ => first | rfl | cases negative

/-- Equal numbers are defined, and on the same side of zero. -/
theorem signs_of_beq (equal : (number == other) = true) :
    other.isNaN = false ∧ number.isComplex = other.isComplex ∧
      number.isNegative = other.isNegative := by
  have unfolded : instBEqNumber.beq number other = true := equal
  cases number <;> cases other <;>
    simp only [instBEqNumber.beq, Bool.false_eq_true, beq_iff_eq] at unfolded
  case int.int => exact ⟨rfl, rfl, by rw [unfolded]⟩
  case rational.rational => exact ⟨rfl, rfl, by rw [unfolded]⟩
  case real.real x y =>
      have sides := Double.lt_zero_congr unfolded
      exact ⟨Double.isNaN_of_beq unfolded, rfl, by simp [isNegative, sides]⟩
  case complexReal.complexReal z w =>
      have parts : (z.re == w.re) = true ∧ (z.im == w.im) = true := by
        simpa [BEq.beq, instBEqCartesian.beq] using unfolded
      refine ⟨?_, rfl, rfl⟩
      rw [isNaN, Double.isNaN_of_beq parts.1, Double.isNaN_of_beq parts.2]
      rfl
  all_goals exact ⟨rfl, rfl, rfl⟩

/-- A number that is defined equals itself. -/
theorem beq_self (defined : number.isNaN = false) : (number == number) = true := by
  change instBEqNumber.beq number number = true
  cases number with
  | int | rational => simp [instBEqNumber.beq]
  | complexInt | complexRational =>
      simp [instBEqNumber.beq, BEq.beq, instBEqCartesian.beq]
  | real value => exact Double.beq_self defined
  | complexReal value =>
      obtain ⟨re, im⟩ : value.re.isNaN = false ∧ value.im.isNaN = false := by
        simpa [isNaN] using defined
      exact Bool.and_eq_true_iff.mpr ⟨Double.beq_self re, Double.beq_self im⟩

end Number

end SymbolicAlgebra
