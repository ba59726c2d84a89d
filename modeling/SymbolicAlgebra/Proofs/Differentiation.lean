import Mathlib.Algebra.DualNumber
import SymbolicAlgebra.Derivative
import SymbolicAlgebra.Proofs.NumericTerms
import SymbolicAlgebra.Proofs.Simplification

/-!
# Derivatives of rational functions

The derivative of a rational function at a point is the infinitesimal part of
its value over the dual numbers, with the variable perturbed.  The rules for
sums, products, quotients and powers compute this part through the arithmetic of
trees, which keeps values.

One intermediate result need not have a value: the derivative of a power with
exponent zero goes through the power with exponent minus one, also where the
base is zero.  It is multiplied by zero, and all that matters is that it is not
an error, which a reading in the ring with one element tells.
-/

namespace SymbolicAlgebra

instance decidableEqDualNumber : DecidableEq (DualNumber ℚ) := inferInstanceAs (DecidableEq (ℚ × ℚ))

/-- The dual numbers of a valuation with one variable perturbed. -/
def perturbed (valuation : String → Option ℚ) (name other : String) : Option (DualNumber ℚ) :=
  (valuation other).map fun value =>
    if other = name then TrivSqZeroExt.inl value + DualNumber.eps else TrivSqZeroExt.inl value

/-! ## Inverses and powers of dual numbers -/

section DualNumbers

variable {dual : DualNumber ℚ}

theorem inverse?_dual (nonzero : dual.fst ≠ 0) : inverse? dual = some dual⁻¹ :=
  if_pos (TrivSqZeroExt.mul_inv_cancel nonzero)

/-- The power of a dual number has the derivative of the power beside it. -/
theorem power?_dual {exponent : Int} (defined : dual.fst ≠ 0 ∨ 0 ≤ exponent) :
    ∃ power, power? dual exponent = some power ∧ power.fst = dual.fst ^ exponent ∧
      power.snd = exponent * dual.fst ^ (exponent - 1) * dual.snd := by
  unfold power?
  by_cases nonnegative : 0 ≤ exponent
  · rw [if_pos nonnegative]
    refine ⟨_, rfl, ?_, ?_⟩
    · rw [TrivSqZeroExt.fst_pow, ← zpow_natCast, Int.toNat_of_nonneg nonnegative]
    · rw [TrivSqZeroExt.snd_pow]
      obtain ⟨natural, rfl⟩ := Int.eq_ofNat_of_zero_le nonnegative
      cases natural with
      | zero => simp
      | succ natural => simp [mul_assoc]
  · rw [if_neg nonnegative]
    have nonzero : dual.fst ≠ 0 := by simpa [nonnegative] using defined
    rw [inverse?_dual nonzero]
    refine ⟨_, rfl, ?_, ?_⟩
    · rw [TrivSqZeroExt.fst_pow, TrivSqZeroExt.fst_inv, inv_pow, ← zpow_natCast, ← zpow_neg]
      congr 1
      omega
    · obtain ⟨natural, rfl⟩ : ∃ natural : Nat, exponent = -(natural + 1 : Int) :=
        ⟨exponent.natAbs - 1, by omega⟩
      have magnitude : (-(natural + 1 : Int)).natAbs = natural + 1 := by omega
      have lowered : dual.fst ^ (-(natural + 1 : Int) - 1) = (dual.fst ^ (natural + 2))⁻¹ := by
        rw [← zpow_natCast, ← zpow_neg]
        congr 1
      rw [magnitude, lowered, TrivSqZeroExt.snd_pow, TrivSqZeroExt.fst_inv, TrivSqZeroExt.snd_inv]
      simp only [Nat.pred_succ, smul_eq_mul, nsmul_eq_mul, MulOpposite.smul_eq_mul_unop,
        MulOpposite.unop_op, inv_pow]
      push_cast
      field_simp
      ring

end DualNumbers

/-! ## Shapes -/

/-- The ring with one element: all rational functions, with every computation
exact. -/
def Reading.shapes : Reading PUnit where
  valuation _ := some ()
  inexact := False
  allowed step := step.staysExact = true
  single := False.elim
  inRange _ := Bool.false_ne_true
  defined _ _ _ noted := absurd noted Bool.false_ne_true

theorem IsPower.of_subsingleton {K : Type} [CommRing K] [Subsingleton K] (base value : K)
    (exponent : Int) : IsPower base exponent value :=
  .inl ⟨1, Subsingleton.elim _ _, Subsingleton.elim _ _⟩

/-- What has a value has a shape. -/
theorem Means.shape {valuation : String → Option ℚ} {tree : Expr} {value : ℚ}
    (means : Means (.rationals valuation) tree value) : Means .shapes tree () := by
  induction means with
  | number reads =>
      exact .number (.inl ⟨_, Reading.reads_rationals_iff.mp reads, rfl⟩)
  | var _ => exact .var rfl
  | neg _ ih => exact .neg ih
  | add _ _ leftIH rightIH => exact .add leftIH rightIH
  | sub _ _ leftIH rightIH => exact .sub leftIH rightIH
  | mul _ _ leftIH rightIH => exact .mul leftIH rightIH
  | div _ _ _ _ leftIH rightIH => exact .div leftIH rightIH (isUnit_of_subsingleton _) rfl
  | pow _ inRange _ ih => exact .pow ih inRange (.of_subsingleton _ _ _)
  | call _ found _ => cases found

theorem Step.staysInRange_of_staysExact {step : Step} (exact : step.staysExact = true) :
    step.staysInRange = true := by
  cases step <;> first | rfl | contradiction

namespace Expr

variable {valuation : String → Option ℚ} {op : ArithOp} {left right operand tree : Expr} {value : ℚ}

theorem arithmetic_exact (means : Means (.rationals valuation) (.arith op left right) value) :
    (Expr.arithmetic op left right).Ensures (·.staysExact = true)
      (Means (.rationals valuation) · value) :=
  (arithmetic_means means).restrict fun _ => Step.staysInRange_of_staysExact

theorem neg_exact (means : Means (.rationals valuation) operand value) :
    operand.neg.Ensures (·.staysExact = true) (Means (.rationals valuation) · (-value)) :=
  (neg_means means).restrict fun _ => Step.staysInRange_of_staysExact

/-- A tree that is neither a constant, an array nor an error. -/
structure IsSymbolic (tree : Expr) : Prop where
  isError : tree.isError = false
  asArray? : tree.asArray? = none
  isConstant : tree.isConstant = false

theorem IsSymbolic.isZero (symbolic : tree.IsSymbolic) : tree.isZero = false := by
  cases tree <;> first | rfl | cases symbolic.isConstant

section Zero

variable {allowed : Step → Prop} {mark : Mark}

/-- Zero times a symbolic tree is the leaf of zero. -/
theorem zero_mul_symbolic (symbolic : tree.IsSymbolic) :
    ((Expr.number (.int 0) mark).mul tree).Ensures allowed (· = .number (.int 0) mark) := by
  obtain ⟨depth, equal⟩ := arithmetic_eq_applyBinary .mul (.number (.int 0) mark) tree
  rw [Expr.mul, equal, applyBinary, combine_eq_identities ⟨rfl, symbolic.isError⟩
    ⟨rfl, symbolic.asArray?⟩ (.inr symbolic.isConstant)]
  exact .pure rfl

theorem mul_zero_symbolic (symbolic : tree.IsSymbolic) :
    (tree.mul (.number (.int 0) mark)).Ensures allowed (· = .number (.int 0) mark) := by
  obtain ⟨depth, equal⟩ := arithmetic_eq_applyBinary .mul tree (.number (.int 0) mark)
  rw [Expr.mul, equal, applyBinary, combine_eq_identities ⟨symbolic.isError, rfl⟩
    ⟨symbolic.asArray?, rfl⟩ (.inl symbolic.isConstant), identities, mulIdentities,
    symbolic.isZero]
  exact .pure rfl

end Zero

/-- Zero times a tree of known shape is zero. -/
theorem zero_mul_exact {mark : Mark} (shape : Means .shapes tree ()) :
    ((Expr.number (.int 0) mark).mul tree).Ensures (·.staysExact = true)
      (Means (.rationals valuation) · 0) := by
  have reads : (Reading.rationals valuation).Reads (.int 0) 0 := by
    simpa using Reading.reads_int inRange_zero
  cases view : tree.asNumber? with
  | some number =>
      obtain ⟨inner, rfl⟩ := Expr.eq_of_asNumber? view
      have shapeReads := Means.number_iff.mp shape
      obtain ⟨fraction, isFraction, _⟩ := shapeReads.fraction rfl (shapeReads.isExact id)
      have product : Means (.rationals valuation)
          (.arith .mul (.number (.int 0) mark) (.number number inner)) (0 * fraction) :=
        .mul (.number reads) (.number (Reading.reads_rationals_iff.mpr isFraction))
      rw [zero_mul] at product
      exact arithmetic_exact product
  | none =>
      have symbolic : tree.IsSymbolic := by
        refine ⟨shape.isError id, shape.asArray?, ?_⟩
        cases shape <;> first | rfl | cases view
      refine (zero_mul_symbolic symbolic).mono ?_
      rintro _ rfl
      exact .number reads

/-! ## The rules of differentiation -/

/-- The tree has a value and a derivative, which are the parts of its value over
the dual numbers, and differentiation yields the derivative. -/
structure Derives (valuation : String → Option ℚ) (name : String) (tree : Expr)
    (dual : DualNumber ℚ) : Prop where
  means : Means (.rationals valuation) tree dual.fst
  denotes : tree.denote (perturbed valuation name) = some dual
  constant : tree.containsVariable name = false → dual.snd = 0
  computes : ∀ depth, tree.size ≤ depth → (differentiateTo depth name tree).Ensures
    (·.staysExact = true) (Means (.rationals valuation) · dual.snd)

namespace Derives

variable {name : String} {mark : Mark} {first second : DualNumber ℚ}

/-- Nodes without the variable have derivative zero, and the others follow the
rule of their operator. -/
theorem of_rule {dual : DualNumber ℚ}
    (means : Means (.rationals valuation) (.arith op left right mark) dual.fst)
    (denotes : (Expr.arith op left right mark).denote (perturbed valuation name) = some dual)
    (constant : left.containsVariable name = false → right.containsVariable name = false →
      dual.snd = 0)
    (rule : ∀ depth, left.size ≤ depth → right.size ≤ depth →
      (differentiateArith (differentiateTo depth name) name (.arith op left right mark) op
        left right).Ensures (·.staysExact = true) (Means (.rationals valuation) · dual.snd)) :
    Derives valuation name (.arith op left right mark) dual where
  means := means
  denotes := denotes
  constant absent := by
    rw [containsVariable_arith, Bool.or_eq_false_iff] at absent
    exact constant absent.1 absent.2
  computes depth enough := by
    rw [size_arith] at enough
    obtain ⟨rest, rfl⟩ : ∃ rest, depth = rest + 1 := ⟨depth - 1, by omega⟩
    simp only [differentiateTo, differentiateNode]
    split
    · rename_i absent
      rw [containsVariable_arith, Bool.not_eq_true', Bool.or_eq_false_iff] at absent
      rw [constant absent.1 absent.2]
      exact .pure .zero
    · exact rule rest (by omega) (by omega)

theorem number {number : Number} {fraction : ℚ} (isFraction : number.IsFraction fraction) :
    Derives valuation name (.number number mark) (TrivSqZeroExt.inl fraction) where
  means := .number (Reading.reads_rationals_iff.mpr isFraction)
  denotes := by
    rw [denote, isFraction.1]
    rfl
  constant _ := TrivSqZeroExt.snd_inl _ _
  computes depth enough := by
    obtain ⟨rest, rfl⟩ : ∃ rest, depth = rest + 1 :=
      ⟨depth - 1, by rw [size_number] at enough; omega⟩
    rw [TrivSqZeroExt.snd_inl]
    exact .pure .zero

theorem var {other : String} {value : ℚ} (found : valuation other = some value) :
    Derives valuation name (.var other mark)
      (if other = name then TrivSqZeroExt.inl value + DualNumber.eps
        else TrivSqZeroExt.inl value) where
  means := by
    refine .var (found.trans ?_)
    split <;> simp
  denotes := by simp [denote, perturbed, found]
  constant absent := by
    have different : other ≠ name := by
      intro same
      simp [containsVariable, fold, asVar?, same] at absent
    simp [different]
  computes depth enough := by
    obtain ⟨rest, rfl⟩ : ∃ rest, depth = rest + 1 :=
      ⟨depth - 1, by rw [size_var] at enough; omega⟩
    refine .pure ?_
    split
    · simpa using Means.one
    · simpa using Means.zero

theorem neg (operand : Derives valuation name tree first) :
    Derives valuation name (.unary .neg tree mark) (-first) where
  means := operand.means.neg
  denotes := by simp [denote, operand.denotes]
  constant absent := by
    rw [containsVariable_unary] at absent
    simp [operand.constant absent]
  computes depth enough := by
    rw [size_unary] at enough
    obtain ⟨rest, rfl⟩ : ∃ rest, depth = rest + 1 := ⟨depth - 1, by omega⟩
    simp only [differentiateTo, differentiateNode]
    split
    · rename_i absent
      rw [TrivSqZeroExt.snd_neg, operand.constant (by simpa using absent), neg_zero]
      exact .pure .zero
    · exact .bind (operand.computes rest (by omega)) fun slope slopeMeans => neg_exact slopeMeans

theorem add (leftDerives : Derives valuation name left first)
    (rightDerives : Derives valuation name right second) :
    Derives valuation name (.arith .add left right mark) (first + second) := by
  refine of_rule (leftDerives.means.add rightDerives.means)
    (by simp [denote, leftDerives.denotes, rightDerives.denotes]) ?_ ?_
  · intro leftAbsent rightAbsent
    simp [leftDerives.constant leftAbsent, rightDerives.constant rightAbsent]
  · intro depth leftEnough rightEnough
    exact .bind (leftDerives.computes depth leftEnough) fun leftSlope leftMeans =>
      .bind (rightDerives.computes depth rightEnough) fun rightSlope rightMeans =>
        arithmetic_exact (.add leftMeans rightMeans)

theorem sub (leftDerives : Derives valuation name left first)
    (rightDerives : Derives valuation name right second) :
    Derives valuation name (.arith .sub left right mark) (first - second) := by
  refine of_rule (leftDerives.means.sub rightDerives.means)
    (by simp [denote, leftDerives.denotes, rightDerives.denotes]) ?_ ?_
  · intro leftAbsent rightAbsent
    simp [leftDerives.constant leftAbsent, rightDerives.constant rightAbsent]
  · intro depth leftEnough rightEnough
    exact .bind (leftDerives.computes depth leftEnough) fun leftSlope leftMeans =>
      .bind (rightDerives.computes depth rightEnough) fun rightSlope rightMeans =>
        arithmetic_exact (.sub leftMeans rightMeans)

/-- The two products of the rules for products and quotients: the derivative of
each side times the other side. -/
theorem products (leftDerives : Derives valuation name left first)
    (rightDerives : Derives valuation name right second) {depth : Nat}
    (leftEnough : left.size ≤ depth) (rightEnough : right.size ≤ depth)
    {next : Expr → Expr → Traced Expr} {condition : Expr → Prop}
    (continues : ∀ leftProduct rightProduct,
      Means (.rationals valuation) leftProduct (first.snd * second.fst) →
      Means (.rationals valuation) rightProduct (first.fst * second.snd) →
        (next leftProduct rightProduct).Ensures (·.staysExact = true) condition) :
    (do
      let leftProduct ← (← differentiateTo depth name left).mul right
      let rightProduct ← left.mul (← differentiateTo depth name right)
      next leftProduct rightProduct).Ensures (·.staysExact = true) condition :=
  .bind (leftDerives.computes depth leftEnough) fun _ leftSlope =>
    .bind (arithmetic_exact (leftSlope.mul rightDerives.means)) fun _ leftProduct =>
      .bind (rightDerives.computes depth rightEnough) fun _ rightSlope =>
        .bind (arithmetic_exact (leftDerives.means.mul rightSlope)) fun _ rightProduct =>
          continues _ _ leftProduct rightProduct

theorem mul (leftDerives : Derives valuation name left first)
    (rightDerives : Derives valuation name right second) :
    Derives valuation name (.arith .mul left right mark) (first * second) := by
  refine of_rule (leftDerives.means.mul rightDerives.means)
    (by simp [denote, leftDerives.denotes, rightDerives.denotes]) ?_ ?_
  · intro leftAbsent rightAbsent
    simp [leftDerives.constant leftAbsent, rightDerives.constant rightAbsent]
  · intro depth leftEnough rightEnough
    refine leftDerives.products rightDerives leftEnough rightEnough fun _ _ leftProduct
      rightProduct => ?_
    have slope : (first * second).snd = first.snd * second.fst + first.fst * second.snd := by
      simp [TrivSqZeroExt.snd_mul]
      ring
    rw [slope]
    exact arithmetic_exact (.add leftProduct rightProduct)

theorem div (leftDerives : Derives valuation name left first)
    (rightDerives : Derives valuation name right second) (nonzero : second.fst ≠ 0) :
    Derives valuation name (.arith .div left right mark) (first * second⁻¹) := by
  refine of_rule ?_ ?_ ?_ ?_
  · refine .div leftDerives.means rightDerives.means (IsUnit.mk0 _ nonzero) ?_
    rw [TrivSqZeroExt.fst_mul, TrivSqZeroExt.fst_inv, inv_mul_cancel_right₀ nonzero]
  · simp [denote, leftDerives.denotes, rightDerives.denotes, inverse?_dual nonzero]
  · intro leftAbsent rightAbsent
    simp [leftDerives.constant leftAbsent, rightDerives.constant rightAbsent]
  · intro depth leftEnough rightEnough
    refine leftDerives.products rightDerives leftEnough rightEnough fun _ _ leftProduct
      rightProduct => .bind (arithmetic_exact (.sub leftProduct rightProduct)) fun _ numerator => ?_
    have square : Means (.rationals valuation) (.arith .pow right (.int 2)) (second.fst ^ 2) :=
      .pow rightDerives.means (by decide) (.of_natural _ (by decide))
    refine .bind (arithmetic_exact square) fun _ denominator => arithmetic_exact ?_
    refine .div numerator denominator (IsUnit.mk0 _ (pow_ne_zero 2 nonzero)) ?_
    simp only [TrivSqZeroExt.snd_mul, TrivSqZeroExt.snd_inv, TrivSqZeroExt.fst_inv, smul_eq_mul,
      MulOpposite.smul_eq_mul_unop, MulOpposite.unop_op]
    field_simp
    ring

theorem sub_one_whole {exponent : Expr} {n : Int} (whole : exponent.IsWhole n) :
    (exponent.sub (.int 1)).Ensures (·.staysExact = true) (·.IsWhole (n - 1)) := by
  have computes := (Kernel.ofDepth_sound (Reading.rationals fun _ => none)
    (callDepth (exponent.size + (Expr.int 1).size))).computes
  exact (computes.sub whole ⟨inRange_one, _, rfl⟩).restrict
    fun _ => Step.staysInRange_of_staysExact

/-- The exponent times the power below: the outer factor of the rule for powers. -/
theorem outer_factor {exponent : Expr} {n : Int} (baseDerives : Derives valuation name left first)
    (whole : exponent.IsWhole n) (defined : first.fst ≠ 0 ∨ 0 ≤ n) {next : Expr → Traced Expr}
    {condition : Expr → Prop}
    (continues : ∀ outer, Means (.rationals valuation) outer (n * first.fst ^ (n - 1)) →
      (next outer).Ensures (·.staysExact = true) condition) :
    (do
      let lowered ← left.pow (← exponent.sub (.int 1))
      let outer ← exponent.mul lowered
      next outer).Ensures (·.staysExact = true) condition := by
  refine .bind (sub_one_whole whole) fun below belowWhole => ?_
  by_cases zero : n = 0
  · -- The power with exponent minus one need not have a value, but it has a shape.
    obtain ⟨_, inner, rfl⟩ := whole
    subst zero
    have lowered : Means .shapes (.arith .pow left below) () :=
      Means.pow_iff.mpr ⟨(), 0 - 1, baseDerives.means.shape, belowWhole, .of_subsingleton _ _ _⟩
    rw [Int.cast_zero, zero_mul] at continues
    exact .bind (arithmetic_means lowered) fun power shape =>
      .bind (zero_mul_exact shape) continues
  · have belowDefined : first.fst ≠ 0 ∨ 0 ≤ n - 1 := by
      rcases defined with nonzero | nonnegative
      · exact .inl nonzero
      · exact .inr (by omega)
    have lowered : Means (.rationals valuation) (.arith .pow left below) (first.fst ^ (n - 1)) :=
      Means.pow_iff.mpr ⟨_, n - 1, baseDerives.means, belowWhole,
        isPower_iff.mpr ⟨belowDefined, rfl⟩⟩
    obtain ⟨inRange, inner, rfl⟩ := whole
    exact .bind (arithmetic_exact lowered) fun power powerMeans =>
      .bind (arithmetic_exact (.mul (.number (Reading.reads_int inRange)) powerMeans)) continues

theorem pow {exponent : Expr} {n : Int} (baseDerives : Derives valuation name left first)
    (whole : exponent.IsWhole n) (defined : first.fst ≠ 0 ∨ 0 ≤ n) :
    ∃ dual, dual.fst = first.fst ^ n ∧
      Derives valuation name (.arith .pow left exponent mark) dual := by
  obtain ⟨dual, computed, value, slope⟩ := power?_dual defined
  refine ⟨dual, value, of_rule ?_ ?_ ?_ ?_⟩
  · exact Means.pow_iff.mpr ⟨_, n, baseDerives.means, whole, isPower_iff.mpr ⟨defined, value.symm⟩⟩
  · obtain ⟨_, inner, rfl⟩ := whole
    simp [denote, baseDerives.denotes, asInt?, computed]
  · intro baseAbsent _
    rw [slope, baseDerives.constant baseAbsent, mul_zero]
  · intro depth baseEnough _
    have literal : exponent.containsVariable name = false := by
      obtain ⟨_, inner, rfl⟩ := whole
      rfl
    rw [slope, differentiateArith, literal, Bool.not_false, if_pos rfl]
    exact outer_factor baseDerives whole defined fun outer outerMeans =>
      .bind (baseDerives.computes depth baseEnough) fun inner innerMeans =>
        arithmetic_exact (outerMeans.mul innerMeans)

end Derives

/-- Every rational function that has a value has a derivative there. -/
theorem exists_derives (name : String) (means : Means (.rationals valuation) tree value) :
    ∃ dual, dual.fst = value ∧ Derives valuation name tree dual := by
  induction means with
  | number reads =>
      exact ⟨_, TrivSqZeroExt.fst_inl _ _, .number (Reading.reads_rationals_iff.mp reads)⟩
  | var found => exact ⟨_, by split <;> simp, .var found⟩
  | neg _ ih =>
      obtain ⟨first, rfl, operand⟩ := ih
      exact ⟨-first, rfl, operand.neg⟩
  | add _ _ leftIH rightIH =>
      obtain ⟨first, rfl, left⟩ := leftIH
      obtain ⟨second, rfl, right⟩ := rightIH
      exact ⟨first + second, rfl, left.add right⟩
  | sub _ _ leftIH rightIH =>
      obtain ⟨first, rfl, left⟩ := leftIH
      obtain ⟨second, rfl, right⟩ := rightIH
      exact ⟨first - second, rfl, left.sub right⟩
  | mul _ _ leftIH rightIH =>
      obtain ⟨first, rfl, left⟩ := leftIH
      obtain ⟨second, rfl, right⟩ := rightIH
      exact ⟨first * second, rfl, left.mul right⟩
  | div _ _ invertible divides leftIH rightIH =>
      obtain ⟨first, rfl, left⟩ := leftIH
      obtain ⟨second, rfl, right⟩ := rightIH
      refine ⟨first * second⁻¹, ?_, left.div right invertible.ne_zero⟩
      rw [TrivSqZeroExt.fst_mul, TrivSqZeroExt.fst_inv, ← divides,
        mul_inv_cancel_right₀ invertible.ne_zero]
  | pow _ inRange power ih =>
      obtain ⟨first, rfl, base⟩ := ih
      obtain ⟨defined, rfl⟩ := isPower_iff.mp power
      exact base.pow ⟨inRange, _, rfl⟩ defined
  | call _ found _ => cases found

/-! ## Evaluation of derivatives -/

/-- Arithmetic on numbers yields numbers. -/
theorem closed_isNumber : Closed (fun _ => none) (·.isNumber = true) where
  number _ _ := rfl
  arithmetic {op left right _} means leftNumber rightNumber := by
    obtain ⟨x, leftView⟩ := Option.isSome_iff_exists.mp leftNumber
    obtain ⟨y, rightView⟩ := Option.isSome_iff_exists.mp rightNumber
    obtain ⟨inner, rfl⟩ := eq_of_asNumber? leftView
    obtain ⟨outer, rfl⟩ := eq_of_asNumber? rightView
    obtain ⟨first, second, leftMeans, rightMeans⟩ := means.operands
    have xExact := (Means.number_iff.mp leftMeans).isExact id
    have yExact := (Means.number_iff.mp rightMeans).isExact id
    have defined := means.not_isUndefinedAt
    refine ((Kernel.ofDepth_sound (.rationals fun _ => none) _).computes.binary xExact yExact
      defined).mono ?_
    rintro _ ⟨_, mark, rfl⟩
    rfl
  neg {operand _} means operandNumber := by
    obtain ⟨x, view⟩ := Option.isSome_iff_exists.mp operandNumber
    obtain ⟨inner, rfl⟩ := eq_of_asNumber? view
    have xExact := (Means.number_iff.mp means).isExact id
    refine ((Kernel.ofDepth_sound (.rationals fun _ => none) _).computes.negate xExact).mono ?_
    rintro _ ⟨_, mark, rfl⟩
    rfl

end Expr

/-- The scope binds every variable that has a value to a number of this value. -/
def Scope.Binds (scope : Scope) (valuation : String → Option ℚ) : Prop :=
  ∀ name value, valuation name = some value → ∃ number mark,
    scope.lookup? name = some (.number number mark) ∧ number.IsFraction value

theorem Scope.Binds.resolves {scope : Scope} {valuation : String → Option ℚ}
    (binds : scope.Binds valuation) :
    Expr.Resolves scope valuation (fun _ => none) (·.isNumber = true) := by
  intro name value mark found
  obtain ⟨number, inside, looked, isFraction⟩ := binds name value found
  simp only [Scope.lookup?, Scope.lookupWithOuter?, Option.map_map,
    Option.map_eq_some_iff] at looked
  obtain ⟨⟨inner, _, outer⟩, split, rfl⟩ := looked
  exact .inr ⟨inner, number, inside, outer, isFraction, split⟩

/-- Evaluation of a derivative evaluates the tree that differentiation yields. -/
theorem evaluateTo_diff {controller : Option Controller} {tree : Expr} {name : String}
    {inner outer : Mark} {fuel : Nat} {state : EvalState} {valuation : String → Option ℚ}
    {slope : ℚ}
    (means : Means (.rationals valuation) ((tree.differentiate name).value state.marks) slope) :
    (Expr.evaluateTo controller (fuel + 1) (.call₂ .diff tree (.var name inner) outer)).run state =
      (Expr.evaluateTo controller fuel ((tree.differentiate name).value state.marks)).run
        { state with
          marks := (tree.differentiate name).marks state.marks
          steps := ((tree.differentiate name).steps state.marks).reverse ++ state.steps } := by
  have resolved : Expr.isUnresolvedDerivativeOf tree
      ((tree.differentiate name).value state.marks) = false := by
    generalize (tree.differentiate name).value state.marks = derivative at means
    cases means <;> rfl
  change (if Expr.isUnresolvedDerivativeOf tree ((tree.differentiate name).value state.marks) = true
    then _ else _ : Evaluation Expr) _ = _
  rw [resolved]
  rfl

/-- At every point where a rational function is defined, differentiation yields
a rational function whose value there is the derivative, as long as all numbers
stay exact; and the derivative node evaluates to this number in every scope that
binds the variables to the point, with fuel for the size of the derivative. -/
theorem differentiate_computes_derivative (tree : Expr) (name : String)
    (valuation : String → Option ℚ) (value : ℚ) (rational : tree.isRationalFunction = true)
    (defined : tree.denote valuation = some value) :
    ∃ dual : DualNumber ℚ, tree.denote (perturbed valuation name) = some dual ∧
      dual.fst = value ∧
      (∀ start, (∀ step ∈ (tree.differentiate name).steps start, step.staysExact = true) →
        ((tree.differentiate name).value start).isRationalFunction = true ∧
          ((tree.differentiate name).value start).denote valuation = some dual.snd) ∧
      ∀ (scope : Scope) (controller : Option Controller) (random : RandomSource)
        (fuel marks : Nat) (inner outer : Mark), scope.Binds valuation →
        (∀ step ∈ (tree.differentiate name).steps marks, step.staysExact = true) →
        ((tree.differentiate name).value marks).size < fuel → ∃ result state,
          Expr.evaluate? fuel controller scope random marks
            (.call₂ .diff tree (.var name inner) outer) = some (result, state) ∧
          ((∀ step ∈ state.trace, step.staysExact = true) → ∃ number mark,
            result = .number number mark ∧ number.toRatio? = some dual.snd) := by
  have means := means_rationals_iff.mpr ⟨rational, defined⟩
  obtain ⟨dual, valueEq, derives⟩ := Expr.exists_derives name means
  have ample : tree.size ≤ depthFor tree.size := by
    have exponent : tree.size ≤ 3 * tree.size + 8 := by omega
    rw [depthFor, Nat.pow_eq]
    exact exponent.trans Nat.lt_two_pow_self.le
  have computes : (tree.differentiate name).Ensures (·.staysExact = true)
      (Means (.rationals valuation) · dual.snd) := derives.computes _ ample
  refine ⟨dual, derives.denotes, valueEq, fun start exact =>
    means_rationals_iff.mp (computes start exact), ?_⟩
  intro scope controller random fuel marks inner outer binds exact enough
  have derivative := computes marks exact
  obtain ⟨rest, rfl⟩ : ∃ rest, fuel = rest + 1 := ⟨fuel - 1, by omega⟩
  have finishes : (Expr.evaluateTo controller rest _).Finishes _ _ _ :=
    Expr.evaluateTo_finishes Expr.closed_isNumber binds.resolves derivative (by omega)
  let start := EvalState.start scope random marks
  obtain ⟨result, state, taken, run, _, steps, holds⟩ := finishes
    { start with
      marks := (tree.differentiate name).marks start.marks
      steps := ((tree.differentiate name).steps start.marks).reverse ++ start.steps } rfl
  have evaluates := @evaluateTo_diff controller tree name inner outer rest start _ _ derivative
  refine ⟨result, state, evaluates.trans run, fun admitted => ?_⟩
  obtain ⟨resultMeans, isNumber⟩ := holds fun step member => by
    refine Step.staysInRange_of_staysExact (admitted step ?_)
    rw [EvalState.trace, List.mem_reverse, steps]
    exact List.mem_append_left _ member
  obtain ⟨number, view⟩ := Option.isSome_iff_exists.mp isNumber
  obtain ⟨mark, rfl⟩ := Expr.eq_of_asNumber? view
  exact ⟨number, mark, rfl, (Reading.reads_rationals_iff.mp (Means.number_iff.mp resultMeans)).1⟩

/-- The derivative of `x ^ (-2) / (x + y)` in `x`, where `x` is `1 / 2` and `y` is
`1`: by differentiation and by evaluation of the node. -/
theorem inverse_square_quotient_has_derivative :
    let tree : Expr :=
      .arith .div (.arith .pow (.var "x") (.int (-2))) (.arith .add (.var "x") (.var "y"))
    let point : String → Option ℚ := fun name =>
      if name = "x" then some (1 / 2) else if name = "y" then some 1 else none
    let scope := Scope.ofBindings [("x", .number (.rational (1 / 2))), ("y", .int 1)]
    tree.denote (perturbed point "x") =
        some (TrivSqZeroExt.inl (8 / 3) + TrivSqZeroExt.inr (-112 / 9)) ∧
      ((tree.differentiate "x").value 0).denote point = some (-112 / 9) ∧
      ∃ number mark state,
        Expr.evaluate? 30 none scope (.ofSeed 1) 0 (.call₂ .diff tree (.var "x")) =
          some (.number number mark, state) ∧ number.toRatio? = some (-112 / 9 : ℚ) := by
  intro tree point scope
  have binds : scope.Binds point := by
    intro name value found
    by_cases isX : name = "x"
    · subst isX
      cases found
      exact ⟨.rational (1 / 2), .initial, rfl, rfl, show Ratio.InRange (1 / 2) by decide +kernel⟩
    · by_cases isY : name = "y"
      · subst isY
        cases found
        exact ⟨.int 1, _, rfl, rfl, inRange_one⟩
      · simp [point, isX, isY] at found
  have denotes : tree.denote (perturbed point "x") =
      some (TrivSqZeroExt.inl (8 / 3) + TrivSqZeroExt.inr (-112 / 9)) := by decide +kernel
  have exact : ∀ step ∈ (tree.differentiate "x").steps 0, step.staysExact = true := by
    decide +kernel
  have evaluated : (Expr.evaluate? 30 none scope (.ofSeed 1) 0
      (.call₂ .diff tree (.var "x"))).all (·.2.trace.all Step.staysExact) = true := by
    decide +kernel
  obtain ⟨dual, dualDenotes, _, derives, evaluates⟩ := differentiate_computes_derivative tree "x"
    point (8 / 3) (by decide +kernel) (by decide +kernel)
  obtain rfl := Option.some.inj (denotes.symm.trans dualDenotes)
  obtain ⟨result, state, run, holds⟩ := evaluates scope none (.ofSeed 1) 30 0 .initial .initial
    binds exact (by decide +kernel)
  rw [run, Option.all_some, List.all_eq_true] at evaluated
  obtain ⟨number, mark, rfl, ratio⟩ := holds evaluated
  have slope : (TrivSqZeroExt.inl (8 / 3) + TrivSqZeroExt.inr (-112 / 9) : DualNumber ℚ).snd =
      -112 / 9 := by simp
  rw [slope] at ratio
  exact ⟨denotes, slope ▸ (derives 0 exact).2, number, mark, state, run, ratio⟩

end SymbolicAlgebra
