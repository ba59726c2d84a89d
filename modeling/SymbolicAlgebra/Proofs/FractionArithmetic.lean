import SymbolicAlgebra.Number.Power
import SymbolicAlgebra.Proofs.NormalForms

/-!
# Arithmetic of fractions

The integers and fractions of the range are the numbers of rational functions.
An exact result of an operation on two of them is again one of them and has the
value of the operation in the field of rationals.  Powers are computed by
repeated squaring over the binary digits of the exponent; the value reached
before a digit is the power by the part of the exponent above it.
-/

namespace SymbolicAlgebra

namespace Number

/-- The number is an integer or a fraction of the range with the given value. -/
def IsFraction (number : Number) (value : ℚ) : Prop :=
  number.toRatio? = some value ∧ number.Bounded

theorem isFraction_int {value : Int} (inRange : InRange value) : IsFraction (.int value) value :=
  ⟨rfl, inRange⟩

theorem isExact_of_isNaN {number : Number} (undefined : number.isNaN = true) :
    number.isExact = false := by
  cases number <;> first | rfl | contradiction

/-- Doubles are the only numbers that can be undefined. -/
theorem isNaN_eq_false_of_isExact {number : Number} (exact : number.isExact = true) :
    number.isNaN = false := by
  cases number <;> first | rfl | exact absurd exact Bool.false_ne_true

/-- On exact numbers the computed equality is equality. -/
theorem beq_iff_eq_of_isExact {left right : Number} (exact : left.isExact = true) :
    (left == right) = true ↔ left = right := by
  have parts {Part : Type} (z w : Cartesian Part) : z.re = w.re ∧ z.im = w.im ↔ z = w := by
    cases z; cases w; simp
  cases left <;> cases right <;>
    simp_all [BEq.beq, instBEqNumber.beq, instBEqCartesian.beq, isExact]

theorem neg_int_eq {whole : Int} (exact : (Number.int whole).neg.isExact = true) :
    InRange (-whole) ∧ (Number.int whole).neg = .int (-whole) := by
  cases negated : checked (-whole) with
  | none => simp [neg, negated, isExact] at exact
  | some result =>
      obtain ⟨inRange, rfl⟩ := checked_eq_some_iff.mp negated
      exact ⟨inRange, by simp only [neg, negated]⟩

namespace IsFraction

variable {number left right : Number} {value p q : ℚ}

theorem value? (fraction : number.IsFraction value) : number.value? = some ⟨value, 0⟩ :=
  (toRatio?_view fraction.1).1

theorem isExact (fraction : number.IsFraction value) : number.isExact = true :=
  isExact_iff_value?.mpr ⟨_, fraction.value?⟩

theorem eq_zero_of_isExactZero (fraction : number.IsFraction value)
    (zero : number.isExactZero = true) : value = 0 := by
  have parts : number.toComplexRatio? = some ⟨0, 0⟩ := by simpa [isExactZero] using zero
  have denotes := fraction.value?
  rw [Number.value?, parts] at denotes
  exact (congrArg QuadraticAlgebra.re (Option.some.inj denotes)).symm

theorem of_represents {number : Number} (represents : number.Represents ⟨value, 0⟩) :
    number.IsFraction value := by
  obtain ⟨canonical, denotes⟩ := represents
  cases number with
  | int whole =>
      obtain rfl : (whole : ℚ) = value := congrArg QuadraticAlgebra.re (Option.some.inj denotes)
      exact isFraction_int canonical
  | rational ratio =>
      obtain rfl : ratio = value := congrArg QuadraticAlgebra.re (Option.some.inj denotes)
      exact ⟨rfl, canonical.1⟩
  | complexInt parts =>
      have real : (parts.im : ℚ) = 0 := congrArg QuadraticAlgebra.im (Option.some.inj denotes)
      exact absurd (Int.cast_eq_zero.mp real) canonical.2.2
  | complexRational parts =>
      exact absurd (congrArg QuadraticAlgebra.im (Option.some.inj denotes)) canonical.2.2.1
  | real _ | complexReal _ => contradiction

/-- An exact result of an operation that computes a function of the field, on
fractions whose value under the function is real. -/
theorem run_represents {operation : TierOperation}
    {result : GaussianRational → GaussianRational → GaussianRational}
    (computes : operation.Computes result) (leftFraction : left.IsFraction p)
    (rightFraction : right.IsFraction q) (real : result ⟨p, 0⟩ ⟨q, 0⟩ = ⟨value, 0⟩)
    (exact : (operation.run left right).isExact = true) :
    (operation.run left right).Represents ⟨value, 0⟩ := by
  obtain ⟨z, w, leftValue, rightValue, represents⟩ := computes.run_represents exact
  obtain rfl := Option.some.inj (leftFraction.value?.symm.trans leftValue)
  obtain rfl := Option.some.inj (rightFraction.value?.symm.trans rightValue)
  exact real ▸ represents leftFraction.2 rightFraction.2

theorem add (leftFraction : left.IsFraction p) (rightFraction : right.IsFraction q)
    (exact : (left.add right).isExact = true) : (left.add right).Represents ⟨p + q, 0⟩ :=
  run_represents addition_computes leftFraction rightFraction
    (QuadraticAlgebra.ext rfl (add_zero 0)) exact

theorem sub (leftFraction : left.IsFraction p) (rightFraction : right.IsFraction q)
    (exact : (left.sub right).isExact = true) : (left.sub right).Represents ⟨p - q, 0⟩ :=
  run_represents subtraction_computes leftFraction rightFraction
    (QuadraticAlgebra.ext rfl (sub_zero 0)) exact

theorem mul (leftFraction : left.IsFraction p) (rightFraction : right.IsFraction q)
    (exact : (left.mul right).isExact = true) : (left.mul right).Represents ⟨p * q, 0⟩ := by
  refine run_represents multiplication_computes leftFraction rightFraction ?_ exact
  exact QuadraticAlgebra.ext (by simp) (by simp)

/-- An exact quotient of fractions also shows that the divisor is not zero. -/
theorem div (leftFraction : left.IsFraction p) (rightFraction : right.IsFraction q)
    (exact : (left.div right).isExact = true) :
    q ≠ 0 ∧ (left.div right).Represents ⟨p / q, 0⟩ := by
  have nonzero : q ≠ 0 := by
    rintro rfl
    have inexact : (left.div right).isExact = false := div_zero_isExact rightFraction.value?
    rw [exact] at inexact
    contradiction
  refine ⟨nonzero, run_represents division_computes leftFraction rightFraction ?_ exact⟩
  exact QuadraticAlgebra.ext (re_div_of_real p nonzero) (by simp)

theorem neg (fraction : number.IsFraction value) (exact : number.neg.isExact = true) :
    number.neg.IsFraction (-value) := by
  obtain ⟨view, bounded⟩ := fraction
  cases number with
  | int whole =>
      obtain rfl := Option.some.inj view
      obtain ⟨inRange, equal⟩ := neg_int_eq exact
      rw [equal, ← Int.cast_neg]
      exact isFraction_int inRange
  | rational ratio =>
      obtain rfl := Option.some.inj view
      cases negated : Ratio.neg? ratio with
      | none => simp [Number.neg, negated, Number.isExact] at exact
      | some result =>
          obtain ⟨rfl, inRange⟩ := Ratio.neg?_eq_some bounded negated
          simp only [Number.neg, negated]
          exact ⟨rfl, inRange⟩
  | real _ | complexInt _ | complexRational _ | complexReal _ => contradiction

end IsFraction

theorem neg_isExact {number : Number} (inexact : number.isExact = false) :
    number.neg.isExact = false := by
  cases number <;> first | rfl | contradiction

/-- The normal form of a whole number is an integer. -/
theorem Represents.eq_int {number : Number} {whole : Int}
    (represents : number.Represents ⟨(whole : ℚ), 0⟩) : number = .int whole ∧ InRange whole := by
  obtain ⟨view, bounded⟩ := IsFraction.of_represents represents
  cases number with
  | int value =>
      obtain rfl : value = whole := by simpa [toRatio?] using view
      exact ⟨rfl, bounded⟩
  | rational ratio =>
      obtain rfl : ratio = whole := Option.some.inj view
      exact absurd (Rat.den_intCast whole) represents.1.2
  | real _ | complexInt _ | complexRational _ | complexReal _ => contradiction

/-- Exact sums, differences, products and quotients come from exact operands. -/
theorem TierOperation.Computes.operands_isExact {operation : TierOperation}
    {result : GaussianRational → GaussianRational → GaussianRational}
    (computes : operation.Computes result) {left right : Number}
    (exact : (operation.run left right).isExact = true) :
    left.isExact = true ∧ right.isExact = true := by
  obtain ⟨z, w, leftValue, rightValue, _⟩ := computes.run_represents exact
  exact ⟨isExact_iff_value?.mpr ⟨z, leftValue⟩, isExact_iff_value?.mpr ⟨w, rightValue⟩⟩

/-! ## Powers -/

/-- Repeated squaring over the last digits of an exponent, from the power by the
part of the exponent above them. -/
theorem powIntDigits_cases {base value : Int} {exponent count : Nat} (inRange : InRange value)
    (invariant : value = base ^ (exponent / 2 ^ count)) :
    (powIntDigits base ((List.range count).reverse.map exponent.testBit) value =
        .int (base ^ exponent) ∧ InRange (base ^ exponent)) ∨
      ∃ rounded, powIntDigits base ((List.range count).reverse.map exponent.testBit) value =
        .real rounded := by
  induction count generalizing value with
  | zero =>
      rw [pow_zero, Nat.div_one] at invariant
      subst invariant
      exact .inl ⟨rfl, inRange⟩
  | succ count ih =>
      have digits : (List.range (count + 1)).reverse.map exponent.testBit =
          exponent.testBit count :: (List.range count).reverse.map exponent.testBit := by
        rw [List.range_succ, List.reverse_append, List.reverse_singleton, List.singleton_append,
          List.map_cons]
      have halved : exponent / 2 ^ (count + 1) = exponent / 2 ^ count / 2 := by
        rw [pow_succ, Nat.div_div_eq_div_mul]
      rw [digits, powIntDigits]
      split
      · rename_i next computed
        simp only [Option.bind_eq_bind, Option.bind_eq_some_iff, checked_eq_some_iff] at computed
        obtain ⟨square, ⟨squareInRange, rfl⟩, computed⟩ := computed
        have squared : value * value = base ^ (2 * (exponent / 2 ^ count / 2)) := by
          rw [invariant, halved, ← pow_add, two_mul]
        cases digit : exponent.testBit count with
        | true =>
            rw [digit, if_pos rfl, checked_eq_some_iff] at computed
            obtain ⟨nextInRange, rfl⟩ := computed
            refine ih nextInRange ?_
            have odd : exponent / 2 ^ count % 2 = 1 := by
              simpa [Nat.testBit_eq_decide_div_mod_eq] using digit
            rw [squared, ← pow_succ]
            congr 1
            omega
        | false =>
            rw [digit, if_neg Bool.false_ne_true] at computed
            obtain rfl := Option.some.inj computed
            refine ih squareInRange ?_
            have even : exponent / 2 ^ count % 2 = 0 := by
              simpa [Nat.testBit_eq_decide_div_mod_eq] using digit
            rw [squared]
            congr 1
            omega
      · exact .inr ⟨_, rfl⟩

/-- A natural power is the exact one, in range, or a double. -/
theorem powNat_cases {base : Int} (inRange : InRange base) (exponent : Nat) :
    (powNat base exponent = .int (base ^ exponent) ∧ InRange (base ^ exponent)) ∨
      ∃ rounded, powNat base exponent = .real rounded := by
  unfold powNat
  by_cases zero : exponent = 0
  · subst zero
    rw [if_pos rfl, pow_zero]
    exact .inl ⟨rfl, inRange_one⟩
  · rw [if_neg zero]
    refine powIntDigits_cases inRange ?_
    have leading : exponent / 2 ^ exponent.log2 = 1 := by
      rw [Nat.div_eq_iff (Nat.two_pow_pos _)]
      have lower := Nat.log2_self_le zero
      have upper := Nat.lt_log2_self (n := exponent)
      rw [pow_succ] at upper
      omega
    rw [leading, pow_one]

theorem ofFraction_isFraction {numerator denominator : Int} (numeratorInRange : InRange numerator)
    (denominatorInRange : InRange denominator)
    (exact : (ofFraction numerator denominator).isExact = true) :
    denominator ≠ 0 ∧ (ofFraction numerator denominator).IsFraction (numerator / denominator) := by
  unfold ofFraction at exact ⊢
  by_cases zero : denominator = 0
  · rw [if_pos zero] at exact
    contradiction
  · rw [if_neg zero] at exact ⊢
    refine ⟨zero, ?_⟩
    cases computed : Ratio.ofInts? numerator denominator with
    | none =>
        rw [computed] at exact
        contradiction
    | some ratio =>
        obtain ⟨equal, _, inRange⟩ :=
          Ratio.ofInts?_eq_some numeratorInRange denominatorInRange computed
        have fraction := IsFraction.of_represents (ofRatio_represents inRange)
        exact equal ▸ fraction

theorem powInt_isFraction {base exponent : Int} (inRange : InRange base)
    (exact : (powInt base exponent).isExact = true) :
    ((base : ℚ) ≠ 0 ∨ 0 ≤ exponent) ∧
      (powInt base exponent).IsFraction ((base : ℚ) ^ exponent) := by
  unfold powInt at exact ⊢
  by_cases least : exponent = minInt
  · rw [if_pos least] at exact
    contradiction
  · rw [if_neg least] at exact ⊢
    by_cases negative : exponent < 0
    · rw [if_pos negative] at exact ⊢
      rcases powNat_cases inRange exponent.natAbs with ⟨power, powerInRange⟩ | ⟨rounded, power⟩
      · rw [power] at exact ⊢
        by_cases zero : base ^ exponent.natAbs = 0
        · simp only [zero] at exact
          contradiction
        · have fraction :=
            ofFraction_isFraction inRange_one powerInRange (by simpa [zero] using exact)
          have value :
              (base : ℚ) ^ exponent = ((1 : Int) : ℚ) / (base ^ exponent.natAbs : Int) := by
            rw [Int.cast_one, Int.cast_pow, one_div, ← zpow_natCast, ← zpow_neg]
            congr 1
            omega
          have nonzero : base ≠ 0 := fun equal => zero (by rw [equal, zero_pow (by omega)])
          refine ⟨.inl (Int.cast_ne_zero.mpr nonzero), ?_⟩
          rw [value]
          simpa [zero] using fraction.2
      · rw [power] at exact
        contradiction
    · rw [if_neg negative] at exact ⊢
      have nonnegative : 0 ≤ exponent := not_lt.mp negative
      refine ⟨.inr nonnegative, ?_⟩
      rcases powNat_cases inRange exponent.toNat with ⟨power, powerInRange⟩ | ⟨rounded, power⟩
      · rw [power]
        have fraction := isFraction_int powerInRange
        rwa [Int.cast_pow, ← zpow_natCast, Int.toNat_of_nonneg nonnegative] at fraction
      · rw [power] at exact
        contradiction

theorem powRatio_isFraction {base : Rat} {exponent : Int} (inRange : Ratio.InRange base)
    (exact : (powRatio base exponent).isExact = true) :
    (base ≠ 0 ∨ 0 ≤ exponent) ∧ (powRatio base exponent).IsFraction (base ^ exponent) := by
  unfold powRatio at exact ⊢
  by_cases least : exponent = minInt
  · rw [if_pos least] at exact
    contradiction
  · rw [if_neg least] at exact ⊢
    -- The exponent's sign decides which part of the fraction is the numerator.
    obtain ⟨parts, partsEq, numeratorInRange, denominatorInRange, divisor, value⟩ :
        ∃ parts : Int × Int,
          (if exponent < 0 then ((base.den : Int), base.num) else (base.num, (base.den : Int))) =
            parts ∧ InRange parts.1 ∧ InRange parts.2 ∧ (exponent < 0 → parts.2 = base.num) ∧
          base ^ exponent = (parts.1 : ℚ) ^ exponent.natAbs / (parts.2 : ℚ) ^ exponent.natAbs := by
      by_cases negative : exponent < 0
      · refine ⟨_, if_pos negative, inRange.2, inRange.1, fun _ => rfl, ?_⟩
        have opposite : exponent = -(exponent.natAbs : Int) := by omega
        nth_rewrite 1 [opposite, ← Rat.num_div_den base]
        rw [zpow_neg, zpow_natCast, div_pow, inv_div, Int.cast_natCast]
      · refine ⟨_, if_neg negative, inRange.1, inRange.2, fun below => absurd below negative, ?_⟩
        have same : exponent = (exponent.natAbs : Int) := by omega
        nth_rewrite 1 [same, ← Rat.num_div_den base]
        rw [zpow_natCast, div_pow, Int.cast_natCast]
    simp only [partsEq] at exact ⊢
    rcases powNat_cases numeratorInRange exponent.natAbs with ⟨top, topInRange⟩ | ⟨topRounded, top⟩
    · rcases powNat_cases denominatorInRange exponent.natAbs with
        ⟨bottom, bottomInRange⟩ | ⟨bottomRounded, bottom⟩
      · simp only [top, bottom] at exact ⊢
        obtain ⟨nonzero, fraction⟩ := ofFraction_isFraction topInRange bottomInRange exact
        refine ⟨?_, ?_⟩
        · by_cases negative : exponent < 0
          · refine .inl fun zero => nonzero ?_
            rw [divisor negative, zero, Rat.num_zero, zero_pow (by omega)]
          · exact .inr (not_lt.mp negative)
        · rwa [value, ← Int.cast_pow, ← Int.cast_pow]
      · simp only [top, bottom, toFloat?] at exact
        split at exact <;> contradiction
    · rcases powNat_cases denominatorInRange exponent.natAbs with
        ⟨bottom, bottomInRange⟩ | ⟨bottomRounded, bottom⟩
      · simp only [top, bottom, toFloat?] at exact
        split at exact <;> contradiction
      · simp only [top, bottom, toFloat?] at exact
        split at exact <;> contradiction

theorem powFloat_isExact (base exponent : Number) : (powFloat base exponent).isExact = false := by
  unfold powFloat
  split
  · split
    · rfl
    · exact ofComplexFloat_isExact _
  · split
    · split <;> exact ofComplexFloat_isExact _
    · exact ofComplexFloat_isExact _

/-- Integer powers of doubles are doubles. -/
theorem pow_int_isExact {base : Number} {exponent : Int} (inexact : base.isExact = false) :
    (base.pow (.int exponent)).isExact = false := by
  cases base with
  | real value => exact powFloat_isExact (.real value) (.int exponent)
  | complexReal value => exact powFloat_isExact (.complexReal value) (.int exponent)
  | int _ | rational _ | complexInt _ | complexRational _ => contradiction

/-- An exact integer power of a fraction also shows that it has a value. -/
theorem IsFraction.pow {base : Number} {value : ℚ} {exponent : Int}
    (fraction : base.IsFraction value)
    (exact : (base.pow (.int exponent)).isExact = true) :
    (value ≠ 0 ∨ 0 ≤ exponent) ∧ (base.pow (.int exponent)).IsFraction (value ^ exponent) := by
  obtain ⟨view, bounded⟩ := fraction
  cases base with
  | int whole =>
      obtain rfl := Option.some.inj view
      exact powInt_isFraction bounded exact
  | rational ratio =>
      obtain rfl := Option.some.inj view
      exact powRatio_isFraction bounded exact
  | real _ | complexInt _ | complexRational _ | complexReal _ => contradiction

end Number

end SymbolicAlgebra
