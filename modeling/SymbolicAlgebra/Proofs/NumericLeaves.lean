import SymbolicAlgebra.Proofs.Concatenation
import SymbolicAlgebra.Proofs.NumericProducts
import SymbolicAlgebra.Proofs.NumericSums

/-!
# Numbers beside one variable

A sum of exact numbers and one variable is simplified to the variable with one number
added or subtracted, whatever the order and the nesting of the addends, and a product
of exact numbers and one variable to the variable with one coefficient at most.

Sums and products go through the tree in the same way: a number joined to a tree of a
final form gives a tree of a final form.
-/

namespace SymbolicAlgebra

open SymbolicAlgebra.Expr

namespace Expr

/-- The numbers of a tree, from left to right. -/
def numbers : Expr → List Number :=
  fold (fun leaf => leaf.asNumber?.toList) fun _ parts => parts.flatten

@[simp] theorem numbers_number (number : Number) (mark : Mark) :
    (Expr.number number mark).numbers = [number] :=
  rfl

@[simp] theorem numbers_var (name : String) (mark : Mark) : (Expr.var name mark).numbers = [] :=
  rfl

@[simp] theorem numbers_unary (op : UnaryOp) (operand : Expr) (mark : Mark) :
    (Expr.unary op operand mark).numbers = operand.numbers := by
  simp [numbers, fold_unary]

@[simp] theorem numbers_arith (op : ArithOp) (left right : Expr) (mark : Mark) :
    (Expr.arith op left right mark).numbers = left.numbers ++ right.numbers := by
  simp [numbers, fold_arith]

/-- The values of the exact numbers of a tree, from left to right. -/
def numericValues (tree : Expr) : List GaussianRational := tree.numbers.filterMap Number.value?

@[simp] theorem numericValues_arith (op : ArithOp) (left right : Expr) (mark : Mark) :
    (Expr.arith op left right mark).numericValues = left.numericValues ++ right.numericValues := by
  simp [numericValues]

/-- A tree of one operator over exact numbers in normal form and one variable. -/
inductive JoinsNumbers (op : ArithOp) (name : String) : Expr → Prop where
  | number {number : Number} {mark : Mark} : number.isExact = true → number.Canonical →
      JoinsNumbers op name (.number number mark)
  | var {mark : Mark} : JoinsNumbers op name (.var name mark)
  | node {left right : Expr} {mark : Mark} : JoinsNumbers op name left →
      JoinsNumbers op name right → JoinsNumbers op name (.arith op left right mark)

/-- The value of sums, differences and products over the Gaussian rationals, where
the variables have the given values. -/
def gaussian? (valuation : String → GaussianRational) : Expr → Option GaussianRational
  | .number value _ => value.value?
  | .var name _ => some (valuation name)
  | .unary .neg operand _ => do pure (-(← gaussian? valuation operand))
  | .arith .add left right _ => do
      pure ((← gaussian? valuation left) + (← gaussian? valuation right))
  | .arith .sub left right _ => do
      pure ((← gaussian? valuation left) - (← gaussian? valuation right))
  | .arith .mul left right _ => do
      pure ((← gaussian? valuation left) * (← gaussian? valuation right))
  | _ => none

end Expr

/-- Joining numbers to a tree of a final form gives a tree of a final form, whose
value is joined from theirs. -/
structure Absorbs (allowed : Step → Prop) (chain : Chain) (name : String)
    (Admitted : GaussianRational → Prop) (Form : GaussianRational → Expr → Prop) : Prop where
  alone : ∀ mark, Form chain.unit (.var name mark)
  admitted : ∀ {z w : GaussianRational}, Admitted z → Admitted w → Admitted (chain.join z w)
  joins : ∀ {tree leaf : Expr} {z w : GaussianRational}, Form z tree → leaf.IsLeafOf w →
    Admitted w →
      (arithmetic chain.op tree leaf).Ensures allowed (Form (chain.join z w)) ∧
        (arithmetic chain.op leaf tree).Ensures allowed (Form (chain.join z w))

section Simplification

variable {allowed : Step → Prop} {chain : Chain} {name : String} {tree : Expr}
  {Admitted : GaussianRational → Prop} {Form : GaussianRational → Expr → Prop}
  {controller : Option Controller} {fuel : Nat}

/-- Numbers and one variable have become a number or a tree of a final form. -/
def Collapses (chain : Chain) (name : String) (Admitted : GaussianRational → Prop)
    (Form : GaussianRational → Expr → Prop) (tree result : Expr) : Prop :=
  (tree.occurrences = [] → ∃ value, Admitted value ∧
    value = tree.numericValues.foldr chain.join chain.unit ∧ result.IsLeafOf value) ∧
  (tree.occurrences = [name] →
    Form (tree.numericValues.foldr chain.join chain.unit) result)

theorem foldr_join_append (chain : Chain) (firsts seconds : List GaussianRational) :
    (firsts ++ seconds).foldr chain.join chain.unit =
      chain.join (firsts.foldr chain.join chain.unit) (seconds.foldr chain.join chain.unit) := by
  induction firsts with
  | nil => rw [List.nil_append, List.foldr_nil, Chain.unit_join]
  | cons first firsts ih => rw [List.cons_append, List.foldr_cons, List.foldr_cons, ih,
      Chain.join_assoc]

theorem arithmetic_leaves (kept : ∀ number, ¬ allowed (.inexact number)) {left right : Expr}
    {z w : GaussianRational} (leftLeaf : left.IsLeafOf z) (rightLeaf : right.IsLeafOf w) :
    (arithmetic chain.op left right).Ensures allowed (·.IsLeafOf (chain.join z w)) := by
  obtain ⟨depth, engine⟩ := arithmetic_eq_applyBinary chain.op left right
  rw [engine]
  exact (combine_leaves kept chain leftLeaf rightLeaf).run_match fun _ leaf => .pure leaf

/-- Two operands of which at most one holds the variable. -/
theorem arithmetic_collapses (kept : ∀ number, ¬ allowed (.inexact number))
    (absorbs : Absorbs allowed chain name Admitted Form) {left right first second : Expr}
    {mark : Mark} (leftCollapses : Collapses chain name Admitted Form left first)
    (rightCollapses : Collapses chain name Admitted Form right second) :
    (arithmetic chain.op first second).Ensures allowed
      (Collapses chain name Admitted Form (.arith chain.op left right mark)) := by
  refine .and (fun start steps none => ?_) (fun start steps single => ?_)
  · rw [occurrences_arith, List.append_eq_nil_iff] at none
    obtain ⟨z, zAdmitted, zEq, leftLeaf⟩ := leftCollapses.1 none.1
    obtain ⟨w, wAdmitted, wEq, rightLeaf⟩ := rightCollapses.1 none.2
    refine ⟨_, absorbs.admitted zAdmitted wAdmitted, ?_,
      arithmetic_leaves kept leftLeaf rightLeaf start steps⟩
    rw [numericValues_arith, foldr_join_append, zEq, wEq]
  · rw [numericValues_arith, foldr_join_append]
    rw [occurrences_arith, List.append_eq_singleton_iff] at single
    rcases single with ⟨none, single⟩ | ⟨single, none⟩
    · obtain ⟨z, zAdmitted, zEq, leftLeaf⟩ := leftCollapses.1 none
      rw [← zEq, Chain.join_comm]
      exact (absorbs.joins (rightCollapses.2 single) leftLeaf zAdmitted).2 start steps
    · obtain ⟨w, wAdmitted, wEq, rightLeaf⟩ := rightCollapses.1 none
      rw [← wEq]
      exact (absorbs.joins (leftCollapses.2 single) rightLeaf wAdmitted).1 start steps

theorem evaluateTo_collapses (kept : ∀ number, ¬ allowed (.inexact number))
    (absorbs : Absorbs allowed chain name Admitted Form) (joins : tree.JoinsNumbers chain.op name)
    (admitted : ∀ value ∈ tree.numericValues, Admitted value) (enough : tree.size ≤ fuel) :
    (evaluateTo controller fuel tree).Finishes allowed .empty
      (Collapses chain name Admitted Form tree) := by
  induction joins generalizing fuel with
  | @number number mark exact canonical =>
      obtain ⟨value, denotes⟩ := Number.isExact_iff_value?.mp exact
      have values : (Expr.number number mark).numericValues = [value] := by
        simp [numericValues, denotes]
      refine evaluateTo_leaf rfl enough ⟨fun _ => ⟨value, ?_, ?_, ?_⟩, nofun⟩
      · exact admitted value (values ▸ List.mem_singleton_self value)
      · rw [values, List.foldr_cons, List.foldr_nil, Chain.join_unit]
      · exact ⟨number, mark, ⟨canonical, denotes⟩, rfl⟩
  | var => exact evaluateTo_leaf rfl enough ⟨nofun, fun _ => absorbs.alone _⟩
  | @node left right mark _ _ leftIH rightIH =>
      obtain ⟨fuel, rfl⟩ := fuel_eq_succ enough
      rw [size_arith] at enough
      rw [numericValues_arith, List.forall_mem_append] at admitted
      have leftCollapses := leftIH admitted.1 (show left.size ≤ fuel by omega)
      have rightCollapses := rightIH admitted.2 (show right.size ≤ fuel by omega)
      exact .ofTraced₂ leftCollapses rightCollapses fun _ _ first second =>
        arithmetic_collapses kept absorbs first second

/-- The engine below an operator is deep enough for every chain of rules. -/
theorem arithmetic_eq_ofDepth (op : ArithOp) (left right : Expr) :
    ∃ depth, arithmetic op left right = (Kernel.ofDepth (depth + 256)).binary op left right := by
  have deep : 256 ≤ callDepth (left.size + right.size) :=
    Nat.pow_le_pow_right Nat.two_pos (Nat.le_add_left 8 _)
  obtain ⟨depth, enough⟩ := Nat.exists_eq_add_of_le' deep
  exact ⟨depth, by rw [arithmetic, enough]⟩

theorem neg_eq_ofDepth (operand : Expr) :
    ∃ depth, operand.neg = (Kernel.ofDepth (depth + 256)).negate operand := by
  have deep : 256 ≤ callDepth operand.size :=
    Nat.pow_le_pow_right Nat.two_pos (Nat.le_add_left 8 _)
  obtain ⟨depth, enough⟩ := Nat.exists_eq_add_of_le' deep
  exact ⟨depth, by rw [neg, enough]⟩

theorem absorbs_shifted (kept : ∀ number, ¬ allowed (.inexact number)) (name : String) :
    Absorbs allowed .additive name (fun _ => True) (Shifted name) where
  alone _ := .alone
  admitted _ _ := trivial
  joins := by
    intro tree leaf z w shifted isLeaf _
    obtain ⟨depth, engine⟩ := arithmetic_eq_ofDepth .add tree leaf
    obtain ⟨other, swapped⟩ := arithmetic_eq_ofDepth .add leaf tree
    have subtracts (depth : Nat) {tree leaf : Expr} {z w : GaussianRational} :
        Shifted name z tree → leaf.IsLeafOf w → IsPositive w →
          ((Kernel.ofDepth (depth + 1)).binary .sub tree leaf).Ensures allowed
            (Shifted name (z - w)) :=
      applyBinary_sub_shifted kept
    rw [Chain.op, engine, swapped]
    exact ⟨(applyBinary_add_shifted kept (subtracts (depth + 254)) shifted isLeaf).1,
      (applyBinary_add_shifted kept (subtracts (other + 254)) shifted isLeaf).2⟩

theorem absorbs_scaled (kept : ∀ number, ¬ allowed (.inexact number)) (name : String) :
    Absorbs allowed .multiplicative name (· ≠ 0) (fun value tree => Scaled name value tree ∧
      value ≠ 0) where
  alone _ := ⟨.alone, one_ne_zero⟩
  admitted := mul_ne_zero
  joins := by
    rintro tree leaf z w ⟨scaled, zNonzero⟩ isLeaf nonzero
    obtain ⟨depth, engine⟩ := arithmetic_eq_ofDepth .mul tree leaf
    obtain ⟨other, swapped⟩ := arithmetic_eq_ofDepth .mul leaf tree
    have product : z * w ≠ 0 := mul_ne_zero zNonzero nonzero
    rw [Chain.op, engine, swapped]
    have behind := (ofDepth_mul_scaled (depth + 252) kept scaled zNonzero isLeaf nonzero).1
    have before := (ofDepth_mul_scaled (other + 252) kept scaled zNonzero isLeaf nonzero).2
    exact ⟨behind.mono fun _ holds => ⟨holds, product⟩, before.mono fun _ holds => ⟨holds, product⟩⟩

theorem Expr.IsLeafOf.eq_number {value : GaussianRational} (isLeaf : tree.IsLeafOf value) :
    ∃ mark, tree = .number (.ofComplexRatio value.re value.im) mark := by
  obtain ⟨number, mark, represents, rfl⟩ := isLeaf
  exact ⟨mark, by rw [represents.eq_ofComplexRatio]⟩

/-- The number decides on the form. -/
theorem Shifted.reads {value : GaussianRational} (shifted : Shifted name value tree) :
    (value = 0 → ∃ mark, tree = .var name mark) ∧
      (IsNegative value → ∃ inner mark outer, tree = .arith .sub (.var name inner)
        (.number (.ofComplexRatio (-value).re (-value).im) mark) outer) ∧
      (value ≠ 0 → ¬ IsNegative value → ∃ mark inner outer, tree = .arith .add
        (.number (.ofComplexRatio value.re value.im) mark) (.var name inner) outer) := by
  cases shifted with
  | @alone mark =>
      exact ⟨fun _ => ⟨mark, rfl⟩, fun negative => absurd negative.2 (lt_irrefl 0),
        fun nonzero => absurd rfl nonzero⟩
  | @less value _ inner outer isLeaf positive =>
      obtain ⟨mark, rfl⟩ := isLeaf.eq_number
      have negative : IsNegative (-value) := positive.neg
      refine ⟨fun zero => absurd (neg_eq_zero.mp zero) positive.ne_zero, fun _ => ?_,
        fun _ notNegative => absurd negative notNegative⟩
      rw [neg_neg]
      exact ⟨inner, mark, outer, rfl⟩
  | @more _ _ inner outer isLeaf nonzero notNegative =>
      obtain ⟨mark, rfl⟩ := isLeaf.eq_number
      exact ⟨fun zero => absurd zero nonzero, fun negative => absurd negative notNegative,
        fun _ _ => ⟨mark, inner, outer, rfl⟩⟩

theorem Scaled.reads {value : GaussianRational} (scaled : Scaled name value tree) :
    tree.occurrences = [name] ∧ tree.numbers.length ≤ 1 ∧
      ∀ valuation, tree.gaussian? valuation = some (value * valuation name) := by
  cases scaled with
  | alone => exact ⟨rfl, Nat.zero_le 1, fun valuation => by simp [gaussian?]⟩
  | negated => exact ⟨rfl, Nat.zero_le 1, fun valuation => by simp [gaussian?]⟩
  | before isLeaf =>
      obtain ⟨number, mark, represents, rfl⟩ := isLeaf
      exact ⟨rfl, Nat.le_refl 1, fun valuation => by simp [gaussian?, represents.2]⟩
  | behind isLeaf =>
      obtain ⟨number, mark, represents, rfl⟩ := isLeaf
      exact ⟨rfl, Nat.le_refl 1, fun valuation => by simp [gaussian?, represents.2, mul_comm]⟩
  | behindNegated isLeaf =>
      obtain ⟨number, mark, represents, rfl⟩ := isLeaf
      exact ⟨rfl, Nat.le_refl 1, fun valuation => by simp [gaussian?, represents.2, mul_comm]⟩

end Simplification

/-- Sums of exact numbers and one variable, in any order and nesting, are simplified to
the variable with one number, which is the sum of all of them: it is left out when it
is zero, subtracted when it is negative and comes first otherwise.  Products of
nonzero numbers and one variable are simplified to a tree with one coefficient at
most, which denotes the product.  Without the variable, the number is all that is
left. -/
theorem numeric_leaves_collapse (name : String) (tree : Expr) (fuel : Nat)
    (enough : tree.size ≤ fuel) (controller : Option Controller) (random : RandomSource)
    (marks : Nat) :
    (tree.JoinsNumbers .add name → ∃ result state,
      simplify? fuel controller random marks tree = some (result, state) ∧
      ((∀ step ∈ state.trace, step.staysInRange = true) →
        let sum := tree.numericValues.sum
        (tree.occurrences = [name] →
          (sum = 0 → ∃ mark, result = .var name mark) ∧
          (sum.im = 0 ∧ sum.re < 0 → ∃ inner mark outer, result = .arith .sub (.var name inner)
            (.number (.ofComplexRatio (-sum).re (-sum).im) mark) outer) ∧
          (sum ≠ 0 → ¬(sum.im = 0 ∧ sum.re < 0) → ∃ mark inner outer, result = .arith .add
            (.number (.ofComplexRatio sum.re sum.im) mark) (.var name inner) outer)) ∧
        (tree.occurrences = [] →
          ∃ mark, result = .number (.ofComplexRatio sum.re sum.im) mark))) ∧
    (tree.JoinsNumbers .mul name → 0 ∉ tree.numericValues → ∃ result state,
      simplify? fuel controller random marks tree = some (result, state) ∧
      ((∀ step ∈ state.trace, step.staysInRange = true) →
        let product := tree.numericValues.prod
        (tree.occurrences = [name] → result.occurrences = [name] ∧ result.numbers.length ≤ 1 ∧
          ∀ valuation, result.gaussian? valuation = some (product * valuation name)) ∧
        (tree.occurrences = [] →
          ∃ mark, result = .number (.ofComplexRatio product.re product.im) mark))) := by
  have kept : ∀ number, ¬ (Step.inexact number).staysInRange = true := fun _ => Bool.false_ne_true
  constructor
  · intro joins
    have finishes : (evaluateTo controller fuel tree).Finishes (·.staysInRange = true) .empty _ :=
      evaluateTo_collapses kept (absorbs_shifted kept name) joins (fun _ _ => trivial) enough
    obtain ⟨result, state, run, holds⟩ := finishes.simplify? random marks
    refine ⟨result, state, run, fun admitted => ⟨fun single => ?_, fun none => ?_⟩⟩
    · exact ((holds admitted).2 single).reads
    · obtain ⟨_, _, rfl, leaf⟩ := (holds admitted).1 none
      exact leaf.eq_number
  · intro joins nonzero
    have finishes : (evaluateTo controller fuel tree).Finishes (·.staysInRange = true) .empty _ :=
      evaluateTo_collapses kept (absorbs_scaled kept name) joins
        (fun value member zero => nonzero (zero ▸ member)) enough
    obtain ⟨result, state, run, holds⟩ := finishes.simplify? random marks
    refine ⟨result, state, run, fun admitted => ⟨fun single => ?_, fun none => ?_⟩⟩
    · exact ((holds admitted).2 single).1.reads
    · obtain ⟨_, _, rfl, leaf⟩ := (holds admitted).1 none
      exact leaf.eq_number

/-- The sum of `i + x` and `-3 - i` is `x - 3`, and `(i * x) * (2 * i)` is `-2` times
`x`. -/
theorem complex_leaves_collapse :
    let sum : Expr := .arith .add (.arith .add (.number (.complexInt ⟨0, 1⟩)) (.var "x"))
      (.number (.complexInt ⟨-3, -1⟩))
    let product : Expr := .arith .mul (.arith .mul (.number (.complexInt ⟨0, 1⟩)) (.var "x"))
      (.number (.complexInt ⟨0, 2⟩))
    (∃ result state inner mark outer,
      simplify? 5 none (.ofSeed 1) 0 sum = some (result, state) ∧
        result = .arith .sub (.var "x" inner) (.number (.int 3) mark) outer) ∧
    ∃ result state, simplify? 5 none (.ofSeed 1) 0 product = some (result, state) ∧
      result.occurrences = ["x"] ∧ result.numbers.length ≤ 1 ∧
        ∀ valuation, result.gaussian? valuation = some (-2 * valuation "x") := by
  intro sum product
  have sumInRange : (simplify? 5 none (.ofSeed 1) 0 sum).all
      (·.2.trace.all Step.staysInRange) = true := by decide +kernel
  have productInRange : (simplify? 5 none (.ofSeed 1) 0 product).all
      (·.2.trace.all Step.staysInRange) = true := by decide +kernel
  have sumValue : sum.numericValues.sum = -3 := by decide +kernel
  have productValue : product.numericValues.prod = -2 := by decide +kernel
  have imaginary {im : Int} (inRange : InRange im) (nonzero : im ≠ 0) :
      (Number.complexInt ⟨0, im⟩).Canonical := ⟨inRange_zero, inRange, nonzero⟩
  have isSum : sum.JoinsNumbers .add "x" :=
    .node (.node (.number rfl (imaginary (by decide) (by decide))) .var)
      (.number rfl ⟨by decide, by decide, by decide⟩)
  have isProduct : product.JoinsNumbers .mul "x" :=
    .node (.node (.number rfl (imaginary (by decide) (by decide))) .var)
      (.number rfl (imaginary (by decide) (by decide)))
  constructor
  · obtain ⟨result, state, run, holds⟩ :=
      (numeric_leaves_collapse "x" sum 5 (by decide) none (.ofSeed 1) 0).1 isSum
    rw [run, Option.all_some, List.all_eq_true] at sumInRange
    obtain ⟨inner, mark, outer, form⟩ := ((holds sumInRange).1 rfl).2.1
      (by rw [sumValue]; decide +kernel)
    refine ⟨result, state, inner, mark, outer, run, ?_⟩
    rw [form, sumValue]
    rfl
  · obtain ⟨result, state, run, holds⟩ :=
      (numeric_leaves_collapse "x" product 5 (by decide) none (.ofSeed 1) 0).2 isProduct
        (by decide +kernel)
    rw [run, Option.all_some, List.all_eq_true] at productInRange
    have reads := (holds productInRange).1 rfl
    rw [productValue] at reads
    exact ⟨result, state, run, reads⟩

end SymbolicAlgebra
