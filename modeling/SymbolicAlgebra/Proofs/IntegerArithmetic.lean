import SymbolicAlgebra.Proofs.ExactPowers

/-!
# Exactness of integer arithmetic

An operation on integers of the range gives an exact number exactly when the range holds
its value.  A sum, difference or product that is refused for integers is refused again for
fractions with denominator one.  A quotient is refused for integers whenever one of them
is the least integer, and is then found among the fractions.  Repeated squaring only goes
through lower powers of the base, and these are in range whenever the last one is.
-/

namespace SymbolicAlgebra

/-! ## Powers in range -/

/-- The powers of an integer do not come back into the range. -/
theorem InRange.of_pow {base : Int} {low high : Nat} (le : low ≤ high)
    (inRange : InRange (base ^ high)) : InRange (base ^ low) := by
  rcases le.eq_or_lt with rfl | less
  · exact inRange
  have magnitudes : |base ^ low| = |base| ^ low ∧ |base ^ high| = |base| ^ high :=
    ⟨abs_pow base low, abs_pow base high⟩
  rcases le_or_gt |base| 1 with small | large
  · have bounded : |base ^ low| ≤ 1 := by
      rw [magnitudes.1]
      exact pow_le_one₀ (abs_nonneg base) small
    have := abs_le.mp bounded
    unfold InRange minInt maxInt
    omega
  · -- A strictly lower power has at most half the magnitude, so that it is not least.
    have doubled : 2 * |base ^ low| ≤ |base ^ high| := by
      rw [magnitudes.1, magnitudes.2]
      calc 2 * |base| ^ low ≤ |base| * |base| ^ low := by
            gcongr
            omega
        _ = |base| ^ (low + 1) := (pow_succ' |base| low).symm
        _ ≤ |base| ^ high := pow_le_pow_right₀ (by omega) less
    have higher : |base ^ high| ≤ 9223372036854775808 := by
      unfold InRange minInt maxInt at inRange
      exact abs_le.mpr (by omega)
    have lower : |base ^ low| ≤ 4611686018427387904 := by omega
    have := abs_le.mp lower
    unfold InRange minInt maxInt
    omega

namespace Ratio

/-- A sound operation refuses an integer that is out of range. -/
theorem eq_none_of_not_inRange {result : Option Rat} {value : Int}
    (sound : ∀ ratio, result = some ratio → ratio = value ∧ InRange ratio)
    (outside : ¬ SymbolicAlgebra.InRange value) : result = none := by
  refine Option.eq_none_iff_forall_ne_some.mpr fun ratio computed => ?_
  obtain ⟨rfl, inRange⟩ := sound ratio computed
  exact outside (by simpa using inRange.1)

/-- Normalizing refuses only fractions whose reduced form is out of range. -/
theorem normalized?_of_inRange {numerator denominator : Int} (nonzero : denominator ≠ 0)
    (inRange : InRange ((numerator : Rat) / denominator)) :
    normalized? numerator denominator = some ((numerator : Rat) / denominator) := by
  have denominatorNonzero : (denominator : Rat) ≠ 0 := Int.cast_ne_zero.mpr nonzero
  unfold normalized?
  rw [if_neg nonzero]
  split
  · rename_i zero
    rw [zero, Int.cast_zero, zero_div]
  split
  · rename_i equal
    rw [equal, div_self denominatorNonzero]
  split
  · rw [Rat.divInt_eq_div]
  · -- The parts of the reduced form are those that are checked.
    rename_i notPositive
    have negative : denominator < 0 := lt_of_le_of_ne (not_lt.mp notPositive) nonzero
    rw [← Rat.divInt_eq_div] at inRange ⊢
    have numeratorInRange := inRange.1
    have denominatorInRange := inRange.2
    rw [Rat.num_divInt, Int.sign_eq_neg_one_of_neg negative, Int.gcd_comm, neg_one_mul,
      Int.neg_ediv_of_dvd (Int.gcd_dvd_left numerator denominator)] at numeratorInRange
    rw [Rat.den_divInt, if_neg nonzero] at denominatorInRange
    have denominatorEq : ((denominator.natAbs / Int.gcd denominator numerator : Nat) : Int) =
        -(denominator / Int.gcd numerator denominator) := by
      rw [Int.natCast_ediv, Int.natCast_natAbs, abs_of_neg negative, Int.gcd_comm,
        Int.neg_ediv_of_dvd (Int.gcd_dvd_right numerator denominator)]
    rw [denominatorEq] at denominatorInRange
    simp [checked, numeratorInRange, denominatorInRange]

end Ratio

namespace Number

/-- The number is the normal form of a fraction where the range holds it, and a double
otherwise. -/
def IsExactInRange (number : Number) (value : ℚ) : Prop :=
  (Ratio.InRange value → number.Represents ⟨value, 0⟩) ∧
    (¬ Ratio.InRange value → ∃ rounded, number = .real rounded)

/-! ## Sums, differences, products and quotients -/

/-- Integers are tried as integers, then as fractions, and rounded last. -/
theorem TierOperation.run_int (operation : TierOperation) (left right : Int) :
    operation.run (.int left) (.int right) =
      ((operation.integer left right).or (operation.rational left right)).getD
        (operation.real (Float.ofInt left) (Float.ofInt right)) := by
  have shared : sharedTiers (.int left) (.int right) =
      [.integer, .rational, .real, .complexInteger, .complexRational, .complexReal] := rfl
  rw [run, climb, shared]
  cases integers : operation.integer left right with
  | some result => simp [at?, asInt?, integers]
  | none =>
      cases fractions : operation.rational left right with
      | some result => simp [at?, asInt?, toRatio?, integers, fractions]
      | none => simp [at?, asInt?, toRatio?, toFloat?, integers, fractions, List.findSome?]

/-- An operation that refuses the same values for integers and for fractions. -/
theorem TierOperation.run_int_eq (operation : TierOperation) {left right value : Int}
    (integers : operation.integer left right = (checked value).map .int)
    (fractions : ¬ InRange value → operation.rational left right = none) :
    operation.run (.int left) (.int right) =
      if InRange value then .int value
      else operation.real (Float.ofInt left) (Float.ofInt right) := by
  rw [run_int, integers]
  split
  · rename_i inRange
    rw [checked, if_pos inRange]
    rfl
  · rename_i outside
    rw [checked, if_neg outside, fractions outside]
    rfl

theorem add_int (left right : Int) : (Number.int left).add (.int right) =
    if InRange (left + right) then .int (left + right)
    else .real (Float.ofInt left + Float.ofInt right) := by
  refine TierOperation.run_int_eq addition rfl fun outside => ?_
  refine Option.map_eq_none_iff.mpr
    (Ratio.eq_none_of_not_inRange (fun ratio computed => ?_) outside)
  rw [Int.cast_add]
  exact Ratio.add?_eq_some computed

theorem sub_int (left right : Int) : (Number.int left).sub (.int right) =
    if InRange (left - right) then .int (left - right)
    else .real (Float.ofInt left - Float.ofInt right) := by
  refine TierOperation.run_int_eq subtraction rfl fun outside => ?_
  refine Option.map_eq_none_iff.mpr
    (Ratio.eq_none_of_not_inRange (fun ratio computed => ?_) outside)
  rw [Int.cast_sub]
  exact Ratio.sub?_eq_some computed

theorem mul_int (left right : Int) : (Number.int left).mul (.int right) =
    if InRange (left * right) then .int (left * right)
    else .real (Float.ofInt left * Float.ofInt right) := by
  refine TierOperation.run_int_eq multiplication rfl fun outside => ?_
  refine Option.map_eq_none_iff.mpr
    (Ratio.eq_none_of_not_inRange (fun ratio computed => ?_) outside)
  rw [Int.cast_mul]
  exact Ratio.mul?_eq_some computed

theorem div_int_zero (left : Int) : (Number.int left).div (.int 0) = nan := by
  rw [div, TierOperation.run_int]
  rfl

/-- As fractions with denominator one, integers are divided by normalizing. -/
theorem div?_intCast (left : Int) {right : Int} (nonzero : right ≠ 0) :
    Ratio.div? left right = Ratio.normalized? left right := by
  simp [Ratio.div?, nonzero]

theorem div_int {left right : Int} (leftInRange : InRange left) (rightInRange : InRange right)
    (nonzero : right ≠ 0) : ((Number.int left).div (.int right)).IsExactInRange (left / right) := by
  have fractions : division.rational left right = (Ratio.normalized? left right).map ofRatio := by
    simp only [division, Int.cast_eq_zero, if_neg nonzero, div?_intCast left nonzero]
  have integers : division.integer left right = (Ratio.ofInts? left right).map ofRatio :=
    if_neg nonzero
  rw [div, TierOperation.run_int, integers, fractions]
  cases whole : Ratio.ofInts? left right with
  | some ratio =>
      obtain ⟨rfl, _, inRange⟩ := Ratio.ofInts?_eq_some leftInRange rightInRange whole
      exact ⟨fun _ => ofRatio_represents inRange, fun outside => absurd inRange outside⟩
  | none =>
      cases normal : Ratio.normalized? left right with
      | some ratio =>
          obtain ⟨rfl, inRange⟩ := Ratio.normalized?_eq_some leftInRange rightInRange normal
          exact ⟨fun _ => ofRatio_represents inRange, fun outside => absurd inRange outside⟩
      | none =>
          refine ⟨fun inRange => ?_, fun _ => ?_⟩
          · rw [Ratio.normalized?_of_inRange nonzero inRange] at normal
            cases normal
          · simp only [Option.map_none, Option.or_none, Option.getD_none, division]
            split
            · exact ⟨_, rfl⟩
            · exact ⟨_, rfl⟩

/-- Integer arithmetic is exact exactly when the range holds the result.  Sums, differences
and products that it does not hold are those of the doubles next to the operands; quotients
are fractions whose reduced form is in range, or doubles. -/
theorem integer_arithmetic_exact_iff_inRange {left right : Int} (leftInRange : InRange left)
    (rightInRange : InRange right) :
    ((Number.int left).add (.int right) =
      if InRange (left + right) then .int (left + right)
      else .real (Float.ofInt left + Float.ofInt right)) ∧
    ((Number.int left).sub (.int right) =
      if InRange (left - right) then .int (left - right)
      else .real (Float.ofInt left - Float.ofInt right)) ∧
    ((Number.int left).mul (.int right) =
      if InRange (left * right) then .int (left * right)
      else .real (Float.ofInt left * Float.ofInt right)) ∧
    (right = 0 → (Number.int left).div (.int right) = .real Double.nan) ∧
    (right ≠ 0 → ((Number.int left).div (.int right)).IsExactInRange (left / right)) := by
  refine ⟨add_int left right, sub_int left right, mul_int left right, ?_, ?_⟩
  · rintro rfl
    exact div_int_zero left
  · exact div_int leftInRange rightInRange

theorem minInt_arithmetic_exact : InRange minInt ∧ InRange 6 ∧
    (Number.int minInt).sub (.int 6) = .real (Float.ofInt minInt - Float.ofInt 6) ∧
    ((Number.int minInt).div (.int 6)).Represents ⟨-4611686018427387904 / 3, 0⟩ := by
  have leastInRange : InRange minInt := by decide
  have sixInRange : InRange 6 := by decide
  obtain ⟨_, difference, _, _, quotient⟩ :=
    integer_arithmetic_exact_iff_inRange leastInRange sixInRange
  have fraction : (minInt : ℚ) / (6 : Int) = -4611686018427387904 / 3 := by norm_num [minInt]
  obtain ⟨exact, _⟩ := quotient (by decide)
  rw [fraction] at exact
  exact ⟨leastInRange, sixInRange, by rw [difference, if_neg (by decide)],
    exact (by decide +kernel)⟩

/-! ## Powers -/

/-- The step of repeated squaring for one digit of the exponent. -/
theorem powIntDigits_succ {base : Int} {exponent count : Nat}
    (inRange : InRange (base ^ (exponent / 2 ^ count))) :
    powIntDigits base ((List.range (count + 1)).reverse.map exponent.testBit)
        (base ^ (exponent / 2 ^ (count + 1))) =
      powIntDigits base ((List.range count).reverse.map exponent.testBit)
        (base ^ (exponent / 2 ^ count)) := by
  have digits : (List.range (count + 1)).reverse.map exponent.testBit =
      decide (exponent / 2 ^ count % 2 = 1) :: (List.range count).reverse.map exponent.testBit := by
    rw [List.range_succ, List.reverse_append, List.reverse_singleton, List.singleton_append,
      List.map_cons, Nat.testBit_eq_decide_div_mod_eq]
  have halved : exponent / 2 ^ (count + 1) = exponent / 2 ^ count / 2 := by
    rw [pow_succ, Nat.div_div_eq_div_mul]
  rw [digits, powIntDigits, halved]
  generalize exponent / 2 ^ count = reached at inRange ⊢
  have square : base ^ (reached / 2) * base ^ (reached / 2) = base ^ (2 * (reached / 2)) := by
    rw [← pow_add, two_mul]
  have squareInRange : InRange (base ^ (2 * (reached / 2))) := inRange.of_pow (by omega)
  simp only [square, checked, if_pos squareInRange, Option.bind_eq_bind, Option.bind_some]
  rcases Nat.mod_two_eq_zero_or_one reached with even | odd
  · have whole : 2 * (reached / 2) = reached := by omega
    simp [even, whole]
  · have whole : 2 * (reached / 2) + 1 = reached := by omega
    rw [← pow_succ, whole, if_pos inRange, if_pos (decide_eq_true odd)]

/-- Repeated squaring stays in range up to a power in range. -/
theorem powIntDigits_of_inRange {base : Int} {exponent : Nat}
    (inRange : InRange (base ^ exponent)) (count : Nat) :
    powIntDigits base ((List.range count).reverse.map exponent.testBit)
      (base ^ (exponent / 2 ^ count)) = .int (base ^ exponent) := by
  induction count with
  | zero =>
      rw [pow_zero, Nat.div_one, List.range_zero, List.reverse_nil, List.map_nil, powIntDigits]
  | succ count ih => rw [powIntDigits_succ (inRange.of_pow (Nat.div_le_self _ _)), ih]

theorem powNat_of_inRange {base : Int} {exponent : Nat} (inRange : InRange (base ^ exponent)) :
    powNat base exponent = .int (base ^ exponent) := by
  unfold powNat
  by_cases zero : exponent = 0
  · rw [if_pos zero, zero, pow_zero]
  · have leading : exponent / 2 ^ exponent.log2 = 1 := by
      rw [Nat.div_eq_iff (Nat.two_pow_pos _)]
      have lower := Nat.log2_self_le zero
      have upper := Nat.lt_log2_self (n := exponent)
      rw [pow_succ] at upper
      omega
    have reached := powIntDigits_of_inRange inRange exponent.log2
    rw [leading, pow_one] at reached
    rw [if_neg zero, trailingDigits, reached]

theorem powNat_of_not_inRange {base : Int} {exponent : Nat} (baseInRange : InRange base)
    (outside : ¬ InRange (base ^ exponent)) : ∃ rounded, powNat base exponent = .real rounded := by
  rcases powNat_cases baseInRange exponent with ⟨_, inRange⟩ | rounded
  · exact absurd inRange outside
  · exact rounded

/-- A unit fraction is in range when its denominator is and can be negated. -/
theorem inRange_one_div_iff {value : Int} (nonzero : value ≠ 0) :
    Ratio.InRange (1 / value) ↔ InRange value ∧ value ≠ minInt := by
  have numerator : InRange value.sign := by
    rcases lt_or_gt_of_ne nonzero with negative | positive
    · rw [Int.sign_eq_neg_one_of_neg negative]
      decide
    · rw [Int.sign_eq_one_of_pos positive]
      decide
  rw [one_div, Ratio.InRange, Rat.inv_intCast_num, Rat.inv_intCast_den, if_neg nonzero]
  refine (and_iff_right numerator).trans ?_
  unfold InRange minInt maxInt
  omega

theorem ofFraction_one {value : Int} (nonzero : value ≠ 0) (inRange : InRange value) :
    (ofFraction 1 value).IsExactInRange (1 / value) := by
  rw [IsExactInRange, inRange_one_div_iff nonzero, ofFraction, if_neg nonzero]
  by_cases least : value = minInt
  · refine ⟨fun reduced => absurd least reduced.2, fun _ => ?_⟩
    rw [Ratio.ofInts?, if_pos (.inr (.inr least))]
    exact ⟨_, rfl⟩
  · have fraction : Ratio.ofInts? 1 value = some (Rat.divInt 1 value) :=
      if_neg (not_or.mpr ⟨nonzero, not_or.mpr ⟨by decide, least⟩⟩)
    obtain ⟨same, _, ratioInRange⟩ := Ratio.ofInts?_eq_some inRange_one inRange fraction
    rw [Int.cast_one] at same
    rw [fraction, same]
    rw [same] at ratioInRange
    exact ⟨fun _ => ofRatio_represents ratioInRange, fun outside => absurd ⟨inRange, least⟩ outside⟩

theorem powInt_of_nonneg {base exponent : Int} (nonnegative : 0 ≤ exponent) :
    powInt base exponent = powNat base exponent.toNat := by
  have aboveLeast : exponent ≠ minInt := by
    unfold minInt
    omega
  rw [powInt, if_neg aboveLeast, if_neg (not_lt.mpr nonnegative)]

theorem powInt_zero_of_neg {exponent : Int} (aboveLeast : minInt < exponent)
    (negative : exponent < 0) : powInt 0 exponent = nan := by
  have power : powNat 0 exponent.natAbs = .int 0 := by
    have zero : (0 : Int) ^ exponent.natAbs = 0 := zero_pow (by omega)
    rw [powNat_of_inRange (by rw [zero]; exact inRange_zero), zero]
  simp only [powInt, if_neg aboveLeast.ne', if_pos negative, power]

theorem powInt_of_neg {base exponent : Int} (baseInRange : InRange base)
    (aboveLeast : minInt < exponent) (negative : exponent < 0) (nonzero : base ≠ 0) :
    (powInt base exponent).IsExactInRange (1 / base ^ exponent.natAbs) := by
  have powerNonzero : base ^ exponent.natAbs ≠ 0 := pow_ne_zero _ nonzero
  rw [powInt, if_neg aboveLeast.ne', if_pos negative, ← Int.cast_pow]
  by_cases inRange : InRange (base ^ exponent.natAbs)
  · rw [powNat_of_inRange inRange]
    generalize base ^ exponent.natAbs = power at powerNonzero inRange ⊢
    split
    · rename_i zero
      cases zero
      contradiction
    · rename_i same
      cases same
      exact ofFraction_one powerNonzero inRange
    · rename_i notInt
      exact absurd rfl (notInt power)
  · obtain ⟨rounded, power⟩ := powNat_of_not_inRange baseInRange inRange
    rw [power, IsExactInRange, inRange_one_div_iff powerNonzero]
    exact ⟨fun reduced => absurd reduced.1 inRange, fun _ => ⟨_, rfl⟩⟩

/-- Integer powers are exact exactly when the range holds them, up to the least exponent
which is always rounded. -/
theorem integer_power_exact_iff_inRange {base : Int} (baseInRange : InRange base)
    (exponent : Int) :
    (0 ≤ exponent →
      (InRange (base ^ exponent.toNat) → powInt base exponent = .int (base ^ exponent.toNat)) ∧
      (¬ InRange (base ^ exponent.toNat) → ∃ rounded, powInt base exponent = .real rounded)) ∧
    (minInt < exponent → exponent < 0 →
      (base = 0 → ∃ rounded, powInt base exponent = .real rounded) ∧
      (base ≠ 0 → (powInt base exponent).IsExactInRange (1 / base ^ exponent.natAbs))) := by
  refine ⟨fun nonnegative => ?_, fun aboveLeast negative => ⟨?_, ?_⟩⟩
  · rw [powInt_of_nonneg nonnegative]
    exact ⟨powNat_of_inRange, powNat_of_not_inRange baseInRange⟩
  · rintro rfl
    exact ⟨_, powInt_zero_of_neg aboveLeast negative⟩
  · exact powInt_of_neg baseInRange aboveLeast negative

theorem minus_two_power_exact : InRange (-2) ∧ powInt (-2) 63 = .int minInt ∧
    (∃ rounded, powInt (-2) 64 = .real rounded) ∧
    (powInt (-2) (-62)).Represents ⟨1 / 4611686018427387904, 0⟩ ∧
    ∃ rounded, powInt (-2) (-63) = .real rounded := by
  have inRange : InRange (-2) := by decide
  obtain ⟨least, _⟩ := (integer_power_exact_iff_inRange inRange 63).1 (by decide)
  obtain ⟨_, above⟩ := (integer_power_exact_iff_inRange inRange 64).1 (by decide)
  obtain ⟨_, reciprocal⟩ :=
    (integer_power_exact_iff_inRange inRange (-62)).2 (by decide) (by decide)
  obtain ⟨_, refused⟩ :=
    (integer_power_exact_iff_inRange inRange (-63)).2 (by decide) (by decide)
  refine ⟨inRange, least (by decide), above (by decide), ?_, ?_⟩
  · have value : (1 : ℚ) / ((-2 : Int) : ℚ) ^ (-62 : Int).natAbs = 1 / 4611686018427387904 := by
      norm_num
    exact value ▸ (reciprocal (by decide)).1 (by rw [value]; decide +kernel)
  · have value : (1 : ℚ) / ((-2 : Int) : ℚ) ^ (-63 : Int).natAbs = -1 / 9223372036854775808 := by
      norm_num
    exact (refused (by decide)).2 (by rw [value]; decide +kernel)

end Number

end SymbolicAlgebra
