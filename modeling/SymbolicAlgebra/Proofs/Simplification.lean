import SymbolicAlgebra.Evaluate
import SymbolicAlgebra.Proofs.Denotation
import SymbolicAlgebra.Proofs.Soundness.Engine

/-!
# Simplification preserves meaning

Operators applied to rational functions yield rational functions with the value
of the operation, wherever that is defined.  Evaluation applies operators from
the leaves upwards, so it yields a tree with the value of the given one: with
the same variables in an empty scope, which is simplification, and a number in a
scope that binds all variables to numbers.

Evaluation of a rational function never runs out of fuel when there is as much of
it as the tree has nodes.
-/

namespace SymbolicAlgebra

/-! ## Evaluations that finish -/

namespace Evaluation

variable {First Second : Type} {allowed : Step → Prop} {scope : Scope}

/-- In the given scope the evaluation finishes and keeps the scope, and its
value meets the condition when all steps that it takes are allowed. -/
def Finishes (allowed : Step → Prop) (scope : Scope) (compute : Evaluation First)
    (condition : First → Prop) : Prop :=
  ∀ state : EvalState, state.scope = scope → ∃ value next taken,
    compute.run state = some (value, next) ∧ next.scope = scope ∧
      next.steps = taken ++ state.steps ∧ ((∀ step ∈ taken, allowed step) → condition value)

namespace Finishes

variable {condition : First → Prop} {later : Second → Prop}

theorem pure {value : First} (holds : condition value) :
    Finishes allowed scope (Pure.pure value) condition :=
  fun state inScope => ⟨value, state, [], rfl, inScope, rfl, fun _ => holds⟩

theorem mono {compute : Evaluation First} {weaker : First → Prop}
    (finishes : Finishes allowed scope compute condition)
    (implies : ∀ value, condition value → weaker value) :
    Finishes allowed scope compute weaker := by
  intro state inScope
  obtain ⟨value, next, taken, run, nextScope, steps, holds⟩ := finishes state inScope
  exact ⟨value, next, taken, run, nextScope, steps, fun admitted => implies value (holds admitted)⟩

theorem and {compute : Evaluation First} {other : First → Prop}
    (finishes : Finishes allowed scope compute condition)
    (alsoFinishes : Finishes allowed scope compute other) :
    Finishes allowed scope compute fun value => condition value ∧ other value := by
  intro state inScope
  obtain ⟨value, next, taken, run, nextScope, steps, holds⟩ := finishes state inScope
  obtain ⟨_, _, _, sameRun, _, sameSteps, otherHolds⟩ := alsoFinishes state inScope
  rw [run, Option.some.injEq, Prod.mk.injEq] at sameRun
  obtain ⟨rfl, rfl⟩ := sameRun
  obtain rfl := List.append_cancel_right (steps.symm.trans sameSteps)
  exact ⟨value, next, taken, run, nextScope, steps, fun admitted =>
    ⟨holds admitted, otherHolds admitted⟩⟩

/-- What comes next has to finish for every value, and may rely on the condition
only for its own. -/
theorem bind {first : Evaluation First} {next : First → Evaluation Second}
    (finishes : Finishes allowed scope first condition)
    (continues : ∀ value, Finishes allowed scope (next value) fun result =>
      condition value → later result) :
    Finishes allowed scope (first >>= next) later := by
  intro state inScope
  obtain ⟨value, middle, taken, run, middleScope, steps, holds⟩ := finishes state inScope
  obtain ⟨result, last, more, nextRun, lastScope, moreSteps, holdsLater⟩ :=
    continues value middle middleScope
  refine ⟨result, last, more ++ taken, ?_, lastScope, ?_, fun admitted => ?_⟩
  · rw [StateT.run_bind, run]
    exact nextRun
  · rw [moreSteps, steps, List.append_assoc]
  · rw [List.forall_mem_append] at admitted
    exact holdsLater admitted.1 (holds admitted.2)

/-- Fewer runs need to be looked at when fewer steps are allowed. -/
theorem restrict {fewer : Step → Prop} {compute : Evaluation First}
    (finishes : Finishes allowed scope compute condition)
    (admits : ∀ step, fewer step → allowed step) : Finishes fewer scope compute condition := by
  intro state inScope
  obtain ⟨value, next, taken, run, nextScope, steps, holds⟩ := finishes state inScope
  exact ⟨value, next, taken, run, nextScope, steps, fun admitted =>
    holds fun step member => admits step (admitted step member)⟩

theorem forEach {compute : Expr → Evaluation Expr} {condition : Expr → Prop} {list : List Expr}
    (finishes : ∀ item ∈ list, Finishes allowed scope (compute item) condition) :
    Finishes allowed scope (Evaluation.forEach compute list) (∀ result ∈ ·, condition result) := by
  induction list with
  | nil => exact pure (List.forall_mem_nil _)
  | cons item list ih =>
      rw [List.forall_mem_cons] at finishes
      refine bind finishes.1 fun result => bind (ih finishes.2) fun results => pure ?_
      exact fun rest holds => List.forall_mem_cons.mpr ⟨holds, rest⟩

/-- A traced computation that ensures its condition under an assumption. -/
theorem ofTraced {computation : Traced First} {assumption : Prop}
    (ensures : assumption → computation.Ensures allowed condition) :
    Finishes allowed scope (Evaluation.ofTraced computation) fun value =>
      assumption → condition value := by
  intro state inScope
  refine ⟨_, _, _, rfl, inScope, rfl, fun admitted assumed => ?_⟩
  refine ensures assumed state.marks fun step member => admitted step ?_
  exact List.mem_reverse.mpr member

theorem ofMarking {compute : Marking First} (ensures : compute.Ensures condition) :
    Finishes allowed scope (liftM compute) condition :=
  (ofTraced fun _ : True => .ofMarking ensures).mono fun _ holds => holds trivial

/-- A traced computation on the values of two evaluations. -/
theorem ofTraced₂ {Third : Type} {first : Evaluation First} {second : Evaluation Second}
    {compute : First → Second → Traced Third} {last : Third → Prop}
    (firstFinishes : Finishes allowed scope first condition)
    (secondFinishes : Finishes allowed scope second later)
    (ensures : ∀ left right, condition left → later right →
      (compute left right).Ensures allowed last) :
    Finishes allowed scope (do
      let left ← first
      let right ← second
      Evaluation.ofTraced (compute left right)) last := by
  refine bind firstFinishes fun left => bind secondFinishes fun right => ?_
  exact (ofTraced fun hold => ensures left right hold.1 hold.2).mono
    fun result holds rightHolds leftHolds => holds (And.intro leftHolds rightHolds)

end Finishes

end Evaluation

/-! ## Evaluation of leaves -/

namespace Expr

theorem fuel_eq_succ {tree : Expr} {fuel : Nat} (enough : tree.size ≤ fuel) :
    ∃ rest, fuel = rest + 1 :=
  Nat.exists_eq_succ_of_ne_zero (Nat.lt_of_lt_of_le tree.size_pos enough).ne'

/-- Leaves are final in an empty scope. -/
theorem evaluateTo_leaf {controller : Option Controller} {fuel : Nat} {tree : Expr}
    {allowed : Step → Prop} {condition : Expr → Prop} (isLeaf : tree.isLeaf = true)
    (enough : tree.size ≤ fuel) (holds : condition tree) :
    (evaluateTo controller fuel tree).Finishes allowed .empty condition := by
  obtain ⟨fuel, rfl⟩ := fuel_eq_succ enough
  intro state inScope
  refine ⟨tree, state, [], ?_, inScope, rfl, fun _ => holds⟩
  cases tree with
  | var name mark =>
      have unbound : Scope.split? name Scope.empty.frames = none := rfl
      simp [evaluateTo, evaluateNode, resolve, inScope, unbound]
  | number | bool | char | text | error => rfl
  | _ => contradiction

/-- Only random numbers take more than the function itself. -/
theorem applyFunctionWith_unary {controller : Option Controller} {function : UnaryFunction}
    {argument : Expr} (notRandom : function ≠ .randList) :
    applyFunctionWith controller (.unary function) [argument] =
      Evaluation.ofTraced (function.apply argument) := by
  have applied : (Function.unary function).apply [argument] = function.apply argument := by
    by_cases isError : argument.isError = true
    · simp [Function.apply, UnaryFunction.apply, isError]
    · simp [Function.apply, isError]
  rw [← applied]
  cases function <;> first | rfl | contradiction

end Expr

/-! ## Evaluation of rational functions -/

namespace Expr

/-- A property of trees that arithmetic on trees of known value keeps. -/
structure Closed (valuation : String → Option ℚ) (Holds : Expr → Prop) : Prop where
  number : ∀ number mark, Holds (.number number mark)
  arithmetic : ∀ {op : ArithOp} {left right : Expr} {value : ℚ},
    Means (.rationals valuation) (.arith op left right) value → Holds left → Holds right →
      (Expr.arithmetic op left right).Ensures (·.staysInRange = true) Holds
  neg : ∀ {operand : Expr} {value : ℚ}, Means (.rationals valuation) operand value →
    Holds operand → operand.neg.Ensures (·.staysInRange = true) Holds

/-- The scope gives variables that have a value a tree of that value. -/
def Resolves (scope : Scope) (source target : String → Option ℚ) (Holds : Expr → Prop) : Prop :=
  ∀ name value mark, source name = some value →
    (Scope.split? name scope.frames = none ∧ target name = some value ∧ Holds (.var name mark)) ∨
      ∃ inner number inside outer, number.IsFraction value ∧
        Scope.split? name scope.frames = some (inner, .number number inside, outer)

variable {source target : String → Option ℚ} {Holds : Expr → Prop} {scope : Scope}
  {controller : Option Controller}

/-- The value of a tree that evaluation yields. -/
def Yields (target : String → Option ℚ) (Holds : Expr → Prop) (value : ℚ) (result : Expr) : Prop :=
  Means (.rationals target) result value ∧ Holds result

theorem resolve_finishes (closed : Closed target Holds)
    (resolves : Resolves scope source target Holds) {evaluate : Expr → Evaluation Expr}
    {name : String} {value : ℚ} {mark : Mark} (found : source name = some value) :
    (resolve evaluate (.var name mark) name).Finishes (·.staysInRange = true) scope
      (Yields target Holds value) := by
  intro state inScope
  rcases resolves name value mark found with ⟨missing, kept, holds⟩ | bound
  · refine ⟨.var name mark, state, [], ?_, inScope, rfl, fun _ => ⟨.var kept, holds⟩⟩
    simp [resolve, inScope, missing]
  · obtain ⟨inner, number, inside, outer, isFraction, binds⟩ := bound
    refine ⟨.number number inside, state, [], ?_, inScope, rfl, fun _ => ⟨?_, closed.number _ _⟩⟩
    · simp [resolve, inScope, binds, isConstant]
    · exact .number (Reading.reads_rationals_iff.mpr isFraction)

theorem neg_yields (closed : Closed target Holds) {operand : Expr} {value : ℚ}
    (yields : Yields target Holds value operand) :
    operand.neg.Ensures (·.staysInRange = true) (Yields target Holds (-value)) :=
  (neg_means yields.1).and (closed.neg yields.1 yields.2)

theorem arithmetic_yields (closed : Closed target Holds) {op : ArithOp} {left right : Expr}
    {value : ℚ} (means : Means (.rationals target) (.arith op left right) value)
    (leftHolds : Holds left) (rightHolds : Holds right) :
    (Expr.arithmetic op left right).Ensures (·.staysInRange = true) (Yields target Holds value) :=
  (arithmetic_means means).and (closed.arithmetic means leftHolds rightHolds)

/-- Both operands are evaluated before the operator is applied. -/
theorem evaluate_operands (closed : Closed target Holds) {evaluate : Expr → Evaluation Expr}
    {op : ArithOp} {left right : Expr} {first second value : ℚ}
    (leftFinishes : (evaluate left).Finishes (·.staysInRange = true) scope
      (Yields target Holds first))
    (rightFinishes : (evaluate right).Finishes (·.staysInRange = true) scope
      (Yields target Holds second))
    (applied : ∀ {newLeft newRight : Expr}, Means (.rationals target) newLeft first →
      Means (.rationals target) newRight second →
        Means (.rationals target) (.arith op newLeft newRight) value) :
    (do
      let newLeft ← evaluate left
      let newRight ← evaluate right
      Evaluation.ofTraced (Expr.arithmetic op newLeft newRight)).Finishes
        (·.staysInRange = true) scope (Yields target Holds value) := by
  refine .ofTraced₂ leftFinishes rightFinishes fun newLeft newRight leftYields rightYields => ?_
  exact arithmetic_yields closed (applied leftYields.1 rightYields.1) leftYields.2 rightYields.2

/-- With as much fuel as the tree has nodes, evaluation finishes with a tree of
the same value. -/
theorem evaluateTo_finishes (closed : Closed target Holds)
    (resolves : Resolves scope source target Holds) {tree : Expr} {value : ℚ}
    (means : Means (.rationals source) tree value) {fuel : Nat} (enough : tree.size ≤ fuel) :
    (evaluateTo controller fuel tree).Finishes (·.staysInRange = true) scope
      (Yields target Holds value) := by
  induction fuel generalizing tree value with
  | zero => exact absurd enough (Nat.not_le_of_gt tree.size_pos)
  | succ fuel ih =>
      cases means with
      | number reads => exact .pure ⟨.number reads, closed.number _ _⟩
      | var found => exact resolve_finishes closed resolves found
      | neg operandMeans =>
          rw [size_unary] at enough
          exact .bind (ih operandMeans (by omega)) fun operand => .ofTraced fun yields =>
            neg_yields closed yields
      | add leftMeans rightMeans =>
          rw [size_arith] at enough
          exact evaluate_operands closed (ih leftMeans (by omega)) (ih rightMeans (by omega)) .add
      | sub leftMeans rightMeans =>
          rw [size_arith] at enough
          exact evaluate_operands closed (ih leftMeans (by omega)) (ih rightMeans (by omega)) .sub
      | mul leftMeans rightMeans =>
          rw [size_arith] at enough
          exact evaluate_operands closed (ih leftMeans (by omega)) (ih rightMeans (by omega)) .mul
      | div leftMeans rightMeans invertible divides =>
          rw [size_arith] at enough
          exact evaluate_operands closed (ih leftMeans (by omega)) (ih rightMeans (by omega))
            fun left right => .div left right invertible divides
      | @pow base first _ exponent inner _ baseMeans inRange power =>
          rw [size_arith, size_number] at enough
          -- The exponent is a literal and evaluates to itself.
          obtain ⟨rest, rfl⟩ : ∃ rest, fuel = rest + 1 := ⟨fuel - 1, by omega⟩
          have literal : (evaluateTo controller (rest + 1) (.number (.int exponent) inner)).Finishes
              (·.staysInRange = true) scope (· = .number (.int exponent) inner) := .pure rfl
          refine .ofTraced₂ (ih baseMeans (by omega)) literal ?_
          rintro newBase _ yields rfl
          exact arithmetic_yields closed (.pow yields.1 inRange power) yields.2 (closed.number _ _)
      | call _ found => cases found

end Expr

/-! ## Simplification -/

/-- The node of an operator over two operands; a unary operator ignores the
second. -/
def Operator.node : Operator → Expr → Expr → Expr
  | .unary op, left, _ => .unary op left
  | .arith op, left, right => .arith op left right
  | .relation comparison, left, right => .relation comparison left right
  | .connective link, left, right => .connective link left right

theorem calculate_means {valuation : String → Option ℚ} {op : Operator} {left right : Expr}
    {value : ℚ} (means : Means (.rationals valuation) (op.node left right) value) :
    (Expr.calculate op left right).Ensures (·.staysInRange = true)
      (Means (.rationals valuation) · value) := by
  cases op with
  | unary op =>
      cases means with
      | neg operand => exact Expr.neg_means operand
  | arith op => exact Expr.arithmetic_means means
  | relation comparison => cases means
  | connective link => cases means

/-- Simplification is evaluation in an empty scope. -/
theorem Evaluation.Finishes.simplify? {allowed : Step → Prop} {condition : Expr → Prop}
    {controller : Option Controller} {fuel : Nat} {tree : Expr}
    (finishes : (Expr.evaluateTo controller fuel tree).Finishes allowed .empty condition)
    (random : RandomSource) (marks : Nat) :
    ∃ result state, Expr.simplify? fuel controller random marks tree = some (result, state) ∧
      ((∀ step ∈ state.trace, allowed step) → condition result) := by
  obtain ⟨result, state, taken, run, _, steps, holds⟩ :=
    finishes (.start .empty random marks) rfl
  refine ⟨result, state, run, fun admitted => holds fun step member => admitted step ?_⟩
  rw [EvalState.trace, List.mem_reverse, steps]
  exact List.mem_append_left _ member

/-- An empty scope leaves variables as they are. -/
theorem resolves_empty (valuation : String → Option ℚ) :
    Expr.Resolves .empty valuation valuation fun _ => True :=
  fun _ _ _ found => .inl ⟨rfl, found, trivial⟩

theorem simplify?_means {valuation : String → Option ℚ} {tree : Expr} {value : ℚ} {fuel : Nat}
    (means : Means (.rationals valuation) tree value) (enough : tree.size ≤ fuel)
    (controller : Option Controller) (random : RandomSource) (marks : Nat) :
    ∃ result state, Expr.simplify? fuel controller random marks tree = some (result, state) ∧
      ((∀ step ∈ state.trace, step.staysInRange = true) →
        Means (.rationals valuation) result value) := by
  have closed : Expr.Closed valuation fun _ => True :=
    ⟨fun _ _ => trivial, fun _ _ _ _ _ => trivial, fun _ _ _ _ => trivial⟩
  have finishes : (Expr.evaluateTo controller fuel tree).Finishes _ _ _ :=
    Expr.evaluateTo_finishes closed (resolves_empty valuation) means enough
  obtain ⟨result, state, run, yields⟩ := finishes.simplify? random marks
  exact ⟨result, state, run, fun admitted => (yields admitted).1⟩

/-- Operators applied to rational functions, simplified or not, give rational
functions of the same value wherever the operation is defined and no number
leaves the range; and so does simplification. -/
theorem simplification_preserves_value :
    (∀ (op : Operator) (left right : Expr) (valuation : String → Option ℚ) (value : ℚ)
      (start : Nat), (op.node left right).isRationalFunction = true →
      (op.node left right).denote valuation = some value →
      (∀ step ∈ (Expr.calculate op left right).steps start, step.staysInRange = true) →
        ((Expr.calculate op left right).value start).isRationalFunction = true ∧
          ((Expr.calculate op left right).value start).denote valuation = some value) ∧
    (∀ (tree : Expr) (valuation : String → Option ℚ) (value : ℚ) (fuel : Nat)
      (controller : Option Controller) (random : RandomSource) (marks : Nat),
      tree.isRationalFunction = true → tree.denote valuation = some value → tree.size ≤ fuel →
        ∃ result state, Expr.simplify? fuel controller random marks tree = some (result, state) ∧
          ((∀ step ∈ state.trace, step.staysInRange = true) →
            result.isRationalFunction = true ∧ result.denote valuation = some value)) := by
  refine ⟨?_, ?_⟩
  · intro op left right valuation value start rational denotes admitted
    have means := means_rationals_iff.mpr ⟨rational, denotes⟩
    exact means_rationals_iff.mp (calculate_means means start admitted)
  · intro tree valuation value fuel controller random marks rational denotes enough
    have means := means_rationals_iff.mpr ⟨rational, denotes⟩
    obtain ⟨result, state, run, holds⟩ := simplify?_means means enough controller random marks
    exact ⟨result, state, run, fun admitted => means_rationals_iff.mp (holds admitted)⟩

/-- The quotient of `2 * x ^ 3` by `-x`, where `x` is `3 / 2`: by the operator and
by simplification of the node. -/
theorem quotient_of_cube_has_value :
    ((Expr.calculate (.arith .div) (.arith .mul (.int 2) (.arith .pow (.var "x") (.int 3)))
      (.unary .neg (.var "x"))).value 0).denote (fun _ => some (3 / 2 : ℚ)) = some (-9 / 2) ∧
    ∃ result state,
      Expr.simplify? 8 none (.ofSeed 1) 0 (.arith .div (.arith .mul (.int 2)
        (.arith .pow (.var "x") (.int 3))) (.unary .neg (.var "x"))) = some (result, state) ∧
      result.denote (fun _ => some (3 / 2 : ℚ)) = some (-9 / 2) := by
  have admitted : ∀ step ∈ (Expr.calculate (.arith .div)
      (.arith .mul (.int 2) (.arith .pow (.var "x") (.int 3)))
      (.unary .neg (.var "x"))).steps 0, step.staysInRange = true := by decide +kernel
  have evaluated : (Expr.simplify? 8 none (.ofSeed 1) 0 (.arith .div (.arith .mul (.int 2)
      (.arith .pow (.var "x") (.int 3))) (.unary .neg (.var "x")))).all
        (·.2.trace.all Step.staysInRange) = true := by decide +kernel
  obtain ⟨result, state, run, holds⟩ := simplification_preserves_value.2
    (.arith .div (.arith .mul (.int 2) (.arith .pow (.var "x") (.int 3))) (.unary .neg (.var "x")))
    (fun _ => some (3 / 2)) (-9 / 2) 8 none (.ofSeed 1) 0 (by decide +kernel) (by decide +kernel)
    (by decide)
  rw [run, Option.all_some, List.all_eq_true] at evaluated
  exact ⟨(simplification_preserves_value.1 _ _ _ _ _ _ (by decide +kernel) (by decide +kernel)
    admitted).2, result, state, run, (holds evaluated).2⟩

end SymbolicAlgebra
