import Mathlib.Tactic.Positivity
import SymbolicAlgebra.Proofs.GaussianPowers

/-!
# Exact powers and roots

An exact square root of a fraction is that of its magnitude, turned into the imaginary
axis for a negative one.  Besides one half, only integers are exponents of exact powers.
-/

namespace SymbolicAlgebra

namespace Number

/-! ## Square roots -/

/-- The root of a perfect square, or a double. -/
theorem sqrtInt_cases {value : Int} (inRange : InRange value) :
    (∃ root : ℕ, (root : ℤ) * root = |value| ∧ InRange root ∧
      sqrtInt value = if 0 ≤ value then .int root else .complexInt ⟨0, root⟩) ∨
    (sqrtInt value).isExact = false := by
  unfold sqrtInt
  dsimp only
  split
  · rename_i perfect
    refine .inl ⟨Nat.sqrt value.natAbs, ?_, ?_, ?_⟩
    · rw [Int.abs_eq_natAbs]
      exact_mod_cast perfect
    · obtain ⟨lower, upper⟩ := inRange
      have small : value.natAbs ≤ 2 ^ 63 := by
        unfold minInt at lower
        unfold maxInt at upper
        omega
      have rootSmall : Nat.sqrt value.natAbs < 2 ^ 32 := Nat.sqrt_lt'.mpr (by omega)
      exact ⟨by unfold minInt; omega, by unfold maxInt; omega⟩
    · split
      · rfl
      · rename_i negative
        have nonzero : (Nat.sqrt value.natAbs : ℤ) ≠ 0 := by
          intro zero
          have : Nat.sqrt value.natAbs = 0 := by exact_mod_cast zero
          rw [this] at perfect
          omega
        rw [ofComplexInt, if_neg nonzero]
  · split
    · exact .inr rfl
    · exact .inr (ofComplexFloat_isExact _)

theorem sqrtFloat_isExact (value : Float) : (sqrtFloat value).isExact = false := by
  unfold sqrtFloat
  split
  · exact ofComplexFloat_isExact _
  · rfl

/-- Both parts of a fraction must be perfect squares for an exact root. -/
theorem sqrt_rational_isExact {ratio : Rat} (inexact : (sqrtInt ratio.num).isExact = false ∨
    (sqrtInt ratio.den).isExact = false) : (Number.rational ratio).sqrt.isExact = false := by
  rw [Number.sqrt]
  split
  · rename_i top bottom
    rw [top, bottom] at inexact
    exact absurd inexact (by simp [isExact])
  · rename_i top bottom
    rw [top, bottom] at inexact
    exact absurd inexact (by simp [isExact])
  · exact sqrtFloat_isExact _

/-- The root of a fraction whose parts are perfect squares. -/
theorem sqrtRatio_represents {ratio : Rat} (inRange : Ratio.InRange ratio)
    (topExact : (sqrtInt ratio.num).isExact = true)
    (bottomExact : (sqrtInt ratio.den).isExact = true) :
    ∃ root : ℚ, 0 ≤ root ∧ root * root = |ratio| ∧
      (Number.rational ratio).sqrt.Represents (if 0 ≤ ratio then ⟨root, 0⟩ else ⟨0, root⟩) := by
  have bottomPositive : (0 : ℤ) ≤ ratio.den := Int.natCast_nonneg _
  obtain ⟨top, topSquare, topInRange, topEq⟩ | inexact := sqrtInt_cases inRange.1
  swap
  · exact absurd (topExact.symm.trans inexact) (by decide)
  obtain ⟨bottom, bottomSquare, bottomInRange, bottomEq⟩ | inexact := sqrtInt_cases inRange.2
  swap
  · exact absurd (bottomExact.symm.trans inexact) (by decide)
  rw [if_pos bottomPositive] at bottomEq
  rw [abs_of_nonneg bottomPositive] at bottomSquare
  have nonzero : (bottom : ℤ) ≠ 0 := by
    intro zero
    rw [zero, mul_zero] at bottomSquare
    exact ratio.den_nz (by exact_mod_cast bottomSquare.symm)
  have square : (top / bottom : ℚ) * (top / bottom) = |ratio| := by
    have topValue : (top : ℚ) * top = |(ratio.num : ℚ)| := by exact_mod_cast topSquare
    have bottomValue : (bottom : ℚ) * bottom = ratio.den := by exact_mod_cast bottomSquare
    have magnitude : |ratio| = |(ratio.num : ℚ)| / ratio.den := by
      rw [← Nat.abs_cast ratio.den, ← abs_div, Rat.num_div_den]
    rw [div_mul_div_comm, topValue, bottomValue, magnitude]
  have notLeast (root : ℕ) : (root : ℤ) ≠ minInt := by
    unfold minInt
    omega
  have fraction : Ratio.ofInts? top bottom = some (Rat.divInt top bottom) := by
    rw [Ratio.ofInts?, if_neg]
    exact not_or.mpr ⟨nonzero, not_or.mpr ⟨notLeast top, notLeast bottom⟩⟩
  obtain ⟨value, _, ratioInRange⟩ := Ratio.ofInts?_eq_some topInRange bottomInRange fraction
  rw [Int.cast_natCast, Int.cast_natCast] at value
  rw [value] at fraction ratioInRange
  refine ⟨top / bottom, by positivity, square, ?_⟩
  rw [Number.sqrt, topEq, bottomEq]
  by_cases nonnegative : 0 ≤ ratio.num
  · rw [if_pos nonnegative, if_pos (Rat.num_nonneg.mp nonnegative)]
    dsimp only
    rw [ofFraction, if_neg nonzero, fraction]
    exact ofRatio_represents ratioInRange
  · rw [if_neg nonnegative, if_neg fun above => nonnegative (Rat.num_nonneg.mpr above)]
    dsimp only
    rw [fraction, Option.getD_some]
    exact ofComplexRatio_represents (by decide) ratioInRange

/-- The root of a fraction is exact exactly when the roots of both parts are. -/
theorem sqrt_rational_isExact_iff {ratio : Rat} (inRange : Ratio.InRange ratio) :
    (Number.rational ratio).sqrt.isExact = true ↔
      (sqrtInt ratio.num).isExact = true ∧ (sqrtInt ratio.den).isExact = true := by
  constructor
  · intro exact
    by_contra inexact
    rw [not_and_or, Bool.not_eq_true, Bool.not_eq_true] at inexact
    rw [sqrt_rational_isExact inexact] at exact
    contradiction
  · rintro ⟨topExact, bottomExact⟩
    obtain ⟨root, _, _, represents⟩ := sqrtRatio_represents inRange topExact bottomExact
    exact represents.isExact

/-- An exact square root of a fraction is that of its magnitude, and imaginary for a
negative one. -/
theorem IsFraction.sqrt {number : Number} {value : ℚ} (fraction : number.IsFraction value)
    (exact : number.sqrt.isExact = true) : ∃ root : ℚ, 0 ≤ root ∧ root * root = |value| ∧
      number.sqrt.Represents (if 0 ≤ value then ⟨root, 0⟩ else ⟨0, root⟩) := by
  obtain ⟨view, bounded⟩ := fraction
  cases number with
  | int whole =>
      obtain rfl := Option.some.inj view
      rw [Number.sqrt] at exact ⊢
      rcases sqrtInt_cases bounded with ⟨root, square, rootInRange, same⟩ | inexact
      · refine ⟨root, Nat.cast_nonneg root, by exact_mod_cast square, ?_⟩
        rw [same]
        by_cases nonnegative : 0 ≤ whole
        · rw [if_pos nonnegative, if_pos (by exact_mod_cast nonnegative)]
          exact ⟨rootInRange, by simp [Number.value?, toComplexRatio?]⟩
        · rw [if_neg nonnegative, if_neg (by exact_mod_cast nonnegative)]
          refine ⟨⟨inRange_zero, rootInRange, ?_⟩, by simp [Number.value?, toComplexRatio?]⟩
          rintro (zero : (root : ℤ) = 0)
          rw [zero, mul_zero] at square
          exact nonnegative (abs_eq_zero.mp square.symm).ge
      · exact absurd (exact.symm.trans inexact) (by decide)
  | rational ratio =>
      obtain rfl := Option.some.inj view
      obtain ⟨topExact, bottomExact⟩ := (sqrt_rational_isExact_iff bounded).mp exact
      exact sqrtRatio_represents bounded topExact bottomExact
  | real _ | complexInt _ | complexRational _ | complexReal _ => cases view

/-! ## Exponents -/

/-- Only integers and one half are exponents of exact powers. -/
theorem exponent_of_isExact {base exponent : Number} (exact : (base.pow exponent).isExact = true) :
    (∃ power, exponent = .int power) ∨
      exponent = .rational (1 / 2) ∧ base.isComplex = false ∧ base.pow exponent = base.sqrt := by
  have notRounded : base.pow exponent ≠ powFloat base exponent := by
    intro rounded
    rw [rounded, powFloat_isExact] at exact
    cases exact
  cases exponent with
  | int power => exact .inl ⟨power, rfl⟩
  | rational ratio =>
      refine .inr ?_
      by_cases half : (!base.isComplex && ratio == (1 / 2 : Rat)) = true
      · have root : base.pow (.rational ratio) = base.sqrt := by
          cases base <;> exact if_pos half
        simp only [Bool.and_eq_true, Bool.not_eq_true', beq_iff_eq] at half
        exact ⟨by rw [half.2], half.1, root⟩
      · refine absurd ?_ notRounded
        cases base <;> simp only [Number.pow] <;> exact if_neg half
  | real _ | complexInt _ | complexRational _ | complexReal _ =>
      exact absurd (by cases base <;> rfl) notRounded

/-- An exact power has an exact base. -/
theorem isExact_of_pow {base exponent : Number} (exact : (base.pow exponent).isExact = true) :
    base.isExact = true := by
  rcases exponent_of_isExact exact with ⟨whole, rfl⟩ | ⟨rfl, real, root⟩
  · by_contra inexact
    have rounded : (base.pow (.int whole)).isExact = false :=
      pow_int_isExact (by simpa using inexact)
    exact absurd (exact.symm.trans rounded) (by decide)
  · rw [root] at exact
    cases base with
    | real value => exact absurd (exact.symm.trans (sqrtFloat_isExact value)) (by decide)
    | int _ | rational _ | complexInt _ | complexRational _ => rfl
    | complexReal _ => cases real

theorem exists_toRatio?_of_pow {base exponent : Number}
    (exact : (base.pow exponent).isExact = true) : ∃ value, exponent.toRatio? = some value := by
  rcases exponent_of_isExact exact with ⟨whole, rfl⟩ | ⟨rfl, _⟩
  · exact ⟨_, rfl⟩
  · exact ⟨_, rfl⟩

theorem Represents.inRange {number : Number} {value : GaussianRational}
    (represents : number.Represents value) :
    Ratio.InRange value.re ∧ Ratio.InRange value.im := by
  obtain ⟨canonical, denotes⟩ := represents
  have zero : Ratio.InRange 0 := by decide
  cases number with
  | int whole =>
      obtain rfl := Option.some.inj denotes
      exact ⟨Ratio.inRange_intCast canonical, zero⟩
  | rational ratio =>
      obtain rfl := Option.some.inj denotes
      exact ⟨canonical.1, zero⟩
  | complexInt parts =>
      obtain rfl := Option.some.inj denotes
      exact ⟨Ratio.inRange_intCast canonical.1, Ratio.inRange_intCast canonical.2.1⟩
  | complexRational parts =>
      obtain rfl := Option.some.inj denotes
      exact ⟨canonical.1, canonical.2.1⟩
  | real _ | complexReal _ => cases denotes

end Number

/-! ## Products -/

/-- Cross cancellation leaves the parts of the reduced product. -/
theorem Ratio.mul?_of_inRange {left right : Rat} (inRange : Ratio.InRange (left * right)) :
    Ratio.mul? left right = some (left * right) := by
  have numerator : left.num / (Nat.gcd left.num.natAbs right.den : Int) *
      (right.num / (Nat.gcd left.den right.num.natAbs : Int)) = (left * right).num := by
    show _ = (Rat.mul left right).num
    rw [Rat.mul, Nat.gcd_comm left.den]
    simp only [Int.divExact_eq_ediv]
  have denominator : left.den / Nat.gcd left.den right.num.natAbs *
      (right.den / Nat.gcd left.num.natAbs right.den) = (left * right).den := by
    show _ = (Rat.mul left right).den
    rw [Rat.mul, Nat.gcd_comm left.den]
    simp only [Nat.divExact_eq_div]
  simp only [Ratio.mul?, numerator, ← Nat.cast_mul, denominator, checked, if_pos inRange.1,
    if_pos inRange.2]
  rfl

namespace Number

/-- The first tier that is tried is the lowest one that holds both operands. -/
theorem TierOperation.run_eq_of_join {operation : TierOperation} {left right result : Number}
    (succeeds : operation.at? left right (left.tier.join right.tier) = some result) :
    operation.run left right = result := by
  rw [run, climb, sharedTiers, List.findSome?_cons, succeeds, Option.getD_some]

theorem eq_int_or_rational_of_toRatio? {number : Number} {value : ℚ}
    (view : number.toRatio? = some value) :
    (∃ whole : Int, number = .int whole ∧ value = whole) ∨ number = .rational value := by
  cases number with
  | int whole => exact .inl ⟨whole, rfl, (Option.some.inj view).symm⟩
  | rational ratio => exact .inr (congrArg rational (Option.some.inj view))
  | real _ | complexInt _ | complexRational _ | complexReal _ => cases view

theorem toRatio?_ofRatio (value : ℚ) : (ofRatio value).toRatio? = some value := by
  unfold ofRatio Ratio.isInteger
  split
  · rename_i whole
    rw [toRatio?, Rat.coe_int_num_of_den_eq_one (by simpa using whole)]
  · rfl

/-- A product of fractions is exact when it is in range. -/
theorem toRatio?_mul {left right : Number} {p q : ℚ} (leftView : left.toRatio? = some p)
    (rightView : right.toRatio? = some q) (inRange : Ratio.InRange (p * q)) :
    (left.mul right).toRatio? = some (p * q) := by
  have fractions (join : left.tier.join right.tier = .rational) :
      (left.mul right).toRatio? = some (p * q) := by
    have succeeds : multiplication.at? left right .rational = some (ofRatio (p * q)) := by
      simp [TierOperation.at?, leftView, rightView, multiplication, Ratio.mul?_of_inRange inRange]
    rw [Number.mul, TierOperation.run_eq_of_join (join ▸ succeeds), toRatio?_ofRatio]
  rcases eq_int_or_rational_of_toRatio? leftView with ⟨a, rfl, rfl⟩ | rfl
  · rcases eq_int_or_rational_of_toRatio? rightView with ⟨b, rfl, rfl⟩ | rfl
    · have product : InRange (a * b) := by
        have numerator := inRange.1
        rwa [← Int.cast_mul, Rat.num_intCast] at numerator
      have succeeds : multiplication.at? (.int a) (.int b) .integer = some (.int (a * b)) := by
        simp [TierOperation.at?, asInt?, multiplication, checked, product]
      rw [Number.mul, TierOperation.run_eq_of_join succeeds, toRatio?, Int.cast_mul]
    · exact fractions rfl
  · rcases eq_int_or_rational_of_toRatio? rightView with ⟨b, rfl, rfl⟩ | rfl <;> exact fractions rfl

end Number

end SymbolicAlgebra
