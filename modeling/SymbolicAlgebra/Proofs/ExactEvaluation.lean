import SymbolicAlgebra.Proofs.ExactOrder
import SymbolicAlgebra.Proofs.NumericTerms
import SymbolicAlgebra.Proofs.Simplification
import SymbolicAlgebra.Proofs.Unmarked

/-!
# Evaluation without rounding

A tree of numbers, operators and square roots can be computed number by number, from the
leaves upwards.  As long as all these numbers are exact, evaluation does just that,
whatever the controller, and needs no more fuel than the tree has nodes.  Two numbers of
the same exact value are equal for an equation, whatever they look like.
-/

namespace SymbolicAlgebra

namespace Expr

/-- The number that a tree comes to where no number on the way is inexact. -/
def exactNumber? : Expr → Option Number
  | .number value _ => Option.guard Number.isExact value
  | .unary .neg operand _ => do Option.guard Number.isExact (← operand.exactNumber?).neg
  | .arith op left right _ => do
      Option.guard Number.isExact (op.onNumbers (← left.exactNumber?) (← right.exactNumber?))
  | .call .sqrt argument _ => do Option.guard Number.isExact (← argument.exactNumber?).sqrt
  | _ => none

variable {tree left right operand : Expr} {x y result : Number} {mark inner outer : Mark}

theorem exactNumber?_number : (Expr.number x mark).exactNumber? = some result ↔
    x = result ∧ result.isExact = true := by
  refine Option.guard_eq_some_iff.trans ?_
  exact and_congr_right fun same => by rw [same]

theorem exactNumber?_neg : (Expr.unary .neg operand mark).exactNumber? = some result ↔
    ∃ x, operand.exactNumber? = some x ∧ x.neg = result ∧ result.isExact = true := by
  refine Option.bind_eq_some_iff.trans ?_
  simp only [Option.guard_eq_some_iff]
  exact exists_congr fun x => and_congr_right fun _ => and_congr_right fun same => by rw [same]

theorem exactNumber?_arith {op : ArithOp} :
    (Expr.arith op left right mark).exactNumber? = some result ↔
      ∃ x y, left.exactNumber? = some x ∧ right.exactNumber? = some y ∧
        op.onNumbers x y = result ∧ result.isExact = true := by
  refine Option.bind_eq_some_iff.trans ?_
  simp only [Option.bind_eq_bind, Option.bind_eq_some_iff, Option.guard_eq_some_iff]
  constructor
  · rintro ⟨x, leftComputed, y, rightComputed, rfl, exact⟩
    exact ⟨x, y, leftComputed, rightComputed, rfl, exact⟩
  · rintro ⟨x, y, leftComputed, rightComputed, rfl, exact⟩
    exact ⟨x, leftComputed, y, rightComputed, rfl, exact⟩

theorem exactNumber?_sqrt : (Expr.call .sqrt operand mark).exactNumber? = some result ↔
    ∃ x, operand.exactNumber? = some x ∧ x.sqrt = result ∧ result.isExact = true := by
  refine Option.bind_eq_some_iff.trans ?_
  simp only [Option.guard_eq_some_iff]
  exact exists_congr fun x => and_congr_right fun _ => and_congr_right fun same => by rw [same]

theorem isExact_of_exactNumber? (computed : tree.exactNumber? = some result) :
    result.isExact = true := by
  fun_cases exactNumber? tree with
  | case1 value mark => exact (exactNumber?_number.mp computed).2
  | case2 operand mark =>
      obtain ⟨_, _, _, exact⟩ := exactNumber?_neg.mp computed
      exact exact
  | case3 op left right mark =>
      obtain ⟨_, _, _, _, _, exact⟩ := exactNumber?_arith.mp computed
      exact exact
  | case4 argument mark =>
      obtain ⟨_, _, _, exact⟩ := exactNumber?_sqrt.mp computed
      exact exact
  | case5 => simp [exactNumber?] at computed

/-- Marks do not matter for the computed number. -/
theorem exactNumber?_unmarked : tree.unmarked.exactNumber? = tree.exactNumber? := by
  fun_induction exactNumber? tree with
  | case1 value mark => rfl
  | case2 operand mark ih =>
      change (Expr.unary .neg operand.unmarked .unset).exactNumber? = _
      rw [exactNumber?, ih]
  | case3 op left right mark leftIH rightIH =>
      change (Expr.arith op left.unmarked right.unmarked .unset).exactNumber? = _
      rw [exactNumber?, leftIH, rightIH]
  | case4 argument mark ih =>
      change (Expr.call .sqrt argument.unmarked .unset).exactNumber? = _
      rw [exactNumber?, ih]
  | case5 tree notNumber notNeg notArith notRoot =>
      cases tree with
      | number value mark => exact absurd rfl (notNumber value mark)
      | unary op operand mark =>
          cases op with
          | neg => exact absurd rfl (notNeg operand mark)
          | not => rfl
      | arith op left right mark => exact absurd rfl (notArith op left right mark)
      | call function argument mark =>
          cases function with
          | sqrt => exact absurd rfl (notRoot argument mark)
          | _ => rfl
      | _ => rfl

/-! ## Operations on numbers -/

variable {allowed : Step → Prop}

theorem neg_number (defined : x.isNaN = false) :
    (Expr.number x mark).neg.Ensures allowed fun tree => ∃ outer, tree = .number x.neg outer := by
  obtain ⟨depth, engine⟩ := neg_eq_applyNegation (.number x mark)
  have computed : (Expr.number x mark).neg = negateNumber x := by
    rw [engine, applyNegation, isError_of_defined defined]
    rfl
  rw [computed]
  exact .numeric fun _ outer => ⟨outer, rfl⟩

/-- The square root of a leaf, where zero is looked up and all else is computed. -/
theorem sqrt_number (exact : x.isExact = true) :
    (UnaryFunction.sqrt.apply (.number x mark)).Ensures allowed fun tree =>
      ∃ outer, tree = .number x.sqrt outer := by
  have root : UnaryFunction.sqrt.atNumber? x = some x.sqrt := by
    by_cases zero : x.isZero = true
    · cases x with
      | int whole =>
          obtain rfl : whole = 0 := by simpa [Number.isZero] using zero
          rfl
      | real _ | complexReal _ => contradiction
      | rational _ | complexInt _ | complexRational _ => contradiction
    · rw [UnaryFunction.atNumber?, if_neg zero]
  have applied : UnaryFunction.sqrt.apply (.number x mark) = ofNumber x.sqrt := by
    unfold UnaryFunction.apply
    rw [isError_of_defined (Number.isNaN_eq_false_of_isExact exact)]
    change liftM (UnaryFunction.sqrt.onNumber x) = _
    simp only [UnaryFunction.onNumber, root]
  rw [applied]
  exact .make fun outer => ⟨outer, rfl⟩

/-! ## Evaluation -/

variable {scope : Scope} {controller : Option Controller} {fuel : Nat}

/-- Where no number is inexact, evaluation computes number by number. -/
theorem evaluateTo_exactNumber (computed : tree.exactNumber? = some result)
    (enough : tree.size ≤ fuel) :
    (evaluateTo controller fuel tree).Finishes allowed scope fun leaf =>
      ∃ mark, leaf = .number result mark := by
  induction fuel generalizing tree result with
  | zero => exact absurd enough (Nat.not_le_of_gt tree.size_pos)
  | succ fuel ih =>
      fun_cases exactNumber? tree with
      | case1 value mark =>
          obtain ⟨rfl, _⟩ := exactNumber?_number.mp computed
          exact .pure ⟨mark, rfl⟩
      | case2 operand mark =>
          obtain ⟨x, operandComputed, rfl, _⟩ := exactNumber?_neg.mp computed
          have defined := Number.isNaN_eq_false_of_isExact (isExact_of_exactNumber? operandComputed)
          rw [size_unary] at enough
          refine .bind (ih operandComputed (by omega)) fun value => .ofTraced ?_
          rintro ⟨inner, rfl⟩
          exact neg_number defined
      | case3 op left right mark =>
          obtain ⟨x, y, leftComputed, rightComputed, rfl, _⟩ := exactNumber?_arith.mp computed
          have xDefined := Number.isNaN_eq_false_of_isExact (isExact_of_exactNumber? leftComputed)
          have yDefined := Number.isNaN_eq_false_of_isExact (isExact_of_exactNumber? rightComputed)
          rw [size_arith] at enough
          refine .ofTraced₂ (ih leftComputed (by omega)) (ih rightComputed (by omega)) ?_
          rintro _ _ ⟨inner, rfl⟩ ⟨outer, rfl⟩
          exact arithmetic_of_defined xDefined yDefined
      | case4 argument mark =>
          obtain ⟨x, argumentComputed, rfl, _⟩ := exactNumber?_sqrt.mp computed
          rw [size_call] at enough
          refine .bind (ih argumentComputed (by omega)) fun value => ?_
          rw [applyFunctionWith_unary (by decide)]
          refine .ofTraced ?_
          rintro ⟨inner, rfl⟩
          exact sqrt_number (isExact_of_exactNumber? argumentComputed)
      | case5 => simp [exactNumber?] at computed

/-! ## Equations -/

/-- An equation of two sides that come to numbers of one exact value evaluates to
true. -/
theorem evaluateTo_equation {value : GaussianRational} (leftComputed : left.exactNumber? = some x)
    (rightComputed : right.exactNumber? = some y) (leftDenotes : x.value? = some value)
    (rightDenotes : y.value? = some value)
    (enough : (Expr.relation .equal left right mark).size ≤ fuel) :
    (evaluateTo controller fuel (.relation .equal left right mark)).Finishes allowed scope
      fun result => ∃ mark, result = .bool true mark := by
  obtain ⟨fuel, rfl⟩ := fuel_eq_succ enough
  have size : (Expr.relation .equal left right mark).size = left.size + (right.size + 1) := rfl
  have xDefined := Number.isNaN_eq_false_of_isExact (isExact_of_exactNumber? leftComputed)
  have yDefined := Number.isNaN_eq_false_of_isExact (isExact_of_exactNumber? rightComputed)
  have leftFinishes : (evaluateTo controller fuel left).Finishes allowed scope _ :=
    evaluateTo_exactNumber leftComputed (by omega)
  have rightFinishes : (evaluateTo controller fuel right).Finishes allowed scope _ :=
    evaluateTo_exactNumber rightComputed (by omega)
  have compares (first second : Expr) : (∃ mark, first = .number x mark) →
      (∃ mark, second = .number y mark) →
        (liftM (compareBy .equal first second) : Traced Expr).Ensures allowed fun result =>
          ∃ mark, result = .bool true mark := by
    rintro ⟨inner, rfl⟩ ⟨outer, rfl⟩
    have decided : compareBy .equal (.number x inner) (.number y outer) = make (.bool true) := by
      simp [compareBy, firstError?, isError_of_defined, xDefined, yDefined, toNumber?,
        compareNumbers, (Number.valueEq_iff_eq leftDenotes rightDenotes).mpr rfl]
    rw [decided]
    exact .make fun mark => ⟨mark, rfl⟩
  exact .ofTraced₂ leftFinishes rightFinishes compares

end Expr

end SymbolicAlgebra
