import SymbolicAlgebra.Proofs.Simplification
import SymbolicAlgebra.Proofs.Tensors

/-!
# Errors

Operators and functions hand on the errors among their operands.  An error can
still end up below an operator or a function when it arises after the operands
were looked at: while terms are cancelled, or in an element of an array that a
function is spread over.

Neither happens to trees with a shape.  A shape says what the scalars of a tree
are and how deep its arrays are nested, and the operators and functions of the
tree must fit the shapes of their operands.  The value of such a tree is a tensor
of its shape, and none of its operators and functions has an error among its
operands.  Where variables are involved, this takes a run in which numbers stay
exact.
-/

namespace SymbolicAlgebra

/-! ## Buried errors -/

namespace Expr

variable {tree : Expr}

/-- Some operator or function of the tree has an error among its operands. -/
def buriesError (tree : Expr) : Bool :=
  tree.subtrees.any fun node =>
    (node.operator?.isSome || node.function?.isSome) && node.children.any isError

/-- A tree buries no error when its children bury none and, below an operator or a
function, are none. -/
theorem buriesError_of_children (clean : ∀ child ∈ tree.children, child.buriesError = false)
    (defined : (tree.operator?.isSome || tree.function?.isSome) = true →
      ∀ child ∈ tree.children, child.isError = false) : tree.buriesError = false := by
  simp only [buriesError, List.any_eq_false] at clean ⊢
  intro node member buries
  rcases mem_subtrees_iff.mp member with rfl | ⟨child, mem, deeper⟩
  · obtain ⟨applies, found⟩ := Bool.and_eq_true_iff.mp buries
    obtain ⟨child, mem, isError⟩ := List.any_eq_true.mp found
    rw [defined applies child mem] at isError
    contradiction
  · exact clean child mem node deeper buries

theorem buriesError_leaf (isLeaf : tree.isLeaf = true) : tree.buriesError = false := by
  refine buriesError_of_children ?_ ?_ <;> simp [children_leaf isLeaf]

/-- Errors that stand directly in an array are not buried. -/
theorem buriesError_array {items : List Expr} {mark : Mark}
    (clean : ∀ item ∈ items, item.buriesError = false) :
    (Expr.array items mark).buriesError = false :=
  buriesError_of_children clean nofun

theorem isLeaf_of_isError (isError : tree.isError = true) : tree.isLeaf = true := by
  cases tree <;> first | rfl | cases isError

theorem isError_formula (formula : tree.isFormula = true) : tree.isError = false := by
  cases tree with
  | number value mark => exact isError_number formula
  | error fault mark => contradiction
  | _ => rfl

theorem isFormula_of_mem_children {child : Expr} (formula : tree.isFormula = true)
    (member : child ∈ tree.children) : child.isFormula = true := by
  fun_cases isFormula tree <;> simp_all [isFormula, children]
  rcases member with rfl | rfl
  · exact formula.1
  · exact formula.2

theorem buriesError_formula (formula : tree.isFormula = true) : tree.buriesError = false := by
  induction tree using induction_children with
  | leaf tree isLeaf => exact buriesError_leaf isLeaf
  | node tree _ ih =>
      refine buriesError_of_children (fun child member => ?_) fun _ child member => ?_
      · exact ih child member (isFormula_of_mem_children formula member)
      · exact isError_formula (isFormula_of_mem_children formula member)

end Expr

theorem Scalars.buriesError_of_admits {scalars : Scalars} {tree : Expr}
    (admitted : scalars.admits tree = true) : tree.buriesError = false := by
  rcases Scalars.number_or_formula admitted with isNumber | formula
  · obtain ⟨number, mark, rfl⟩ := Expr.eq_of_isNumber isNumber
    exact Expr.buriesError_leaf rfl
  · exact Expr.buriesError_formula formula

theorem Tensor.buriesError {scalars : Scalars} {rank : Nat} {tree : Expr}
    (tensor : Tensor scalars rank tree) : tree.buriesError = false := by
  induction tensor with
  | error isError => exact Expr.buriesError_leaf (Expr.isLeaf_of_isError isError)
  | scalar admitted => exact Scalars.buriesError_of_admits admitted
  | array _ ih => exact Expr.buriesError_array ih

/-! ## Trees with a shape -/

/-- Trees whose values are tensors of a rank over some scalars. -/
inductive Shaped : Scalars → Nat → Expr → Prop where
  | error {scalars : Scalars} {rank : Nat} {tree : Expr} (isError : tree.isError = true) :
      Shaped scalars rank tree
  | leaf {scalars : Scalars} {tree : Expr} (isLeaf : tree.isLeaf = true)
      (admitted : scalars.admits tree = true) : Shaped scalars 0 tree
  | array {scalars : Scalars} {rank : Nat} {items : List Expr} {mark : Mark}
      (shaped : ∀ item ∈ items, Shaped scalars rank item) :
      Shaped scalars (rank + 1) (.array items mark)
  | neg {scalars : Scalars} {rank : Nat} {operand : Expr} {mark : Mark}
      (closed : scalars.allowOperators = true) (shaped : Shaped scalars rank operand) :
      Shaped scalars rank (.unary .neg operand mark)
  | arith {scalars : Scalars} {leftRank rightRank : Nat} {op : ArithOp} {left right : Expr}
      {mark : Mark} (closed : scalars.allowOperators = true)
      (fits : op.fits leftRank rightRank = true) (leftShaped : Shaped scalars leftRank left)
      (rightShaped : Shaped scalars rightRank right) :
      Shaped scalars (max leftRank rightRank) (.arith op left right mark)
  | call {scalars : Scalars} {function : UnaryFunction} {argument : Expr} {mark : Mark}
      (closed : scalars.allowFunctions = true) (notRandom : function ≠ .randList)
      (shaped : Shaped scalars 0 argument) : Shaped scalars 0 (.call function argument mark)
  | widen {scalars wider : Scalars} {rank : Nat} {tree : Expr}
      (smaller : scalars.within wider = true) (shaped : Shaped scalars rank tree) :
      Shaped wider rank tree

/-- Trees with a shape, and arrays of such trees, whose shapes may differ. -/
inductive Nested : Expr → Prop where
  | shaped {scalars : Scalars} {rank : Nat} {tree : Expr} (shaped : Shaped scalars rank tree) :
      Nested tree
  | array {items : List Expr} {mark : Mark} (nested : ∀ item ∈ items, Nested item) :
      Nested (.array items mark)

namespace Expr

variable {scalars : Scalars} {rank : Nat} {tree : Expr} {controller : Option Controller}
  {fuel : Nat}

theorem le_callDepth (size : Nat) : size ≤ callDepth size :=
  calc size ≤ 2 ^ size := Nat.lt_two_pow_self.le
    _ ≤ callDepth size := Nat.pow_le_pow_right Nat.two_pos (by omega)

/-- The elements of an array are evaluated one after the other. -/
theorem evaluateTo_array {items : List Expr} {mark : Mark} {allowed : Step → Prop}
    {condition later : Expr → Prop}
    (finishes : ∀ item ∈ items, (evaluateTo controller fuel item).Finishes allowed .empty condition)
    (collects : ∀ results outer, (∀ result ∈ results, condition result) →
      later (.array results outer)) :
    (evaluateTo controller (fuel + 1) (.array items mark)).Finishes allowed .empty later :=
  .bind (.forEach finishes) fun results => Evaluation.Finishes.ofTraced fun hold =>
    .make fun outer => collects results outer hold

/-- Evaluation of a tree with a shape yields a tensor of that shape. -/
theorem evaluateTo_shaped (shaped : Shaped scalars rank tree) (enough : tree.size ≤ fuel) :
    (evaluateTo controller fuel tree).Finishes (scalars.permits · = true) .empty
      (Tensor scalars rank) := by
  induction shaped generalizing fuel with
  | widen smaller _ ih =>
      exact ((ih enough).mono fun _ tensor => tensor.mono smaller).restrict
        fun _ => Scalars.permits_of_within smaller
  | error isError =>
      exact evaluateTo_leaf (isLeaf_of_isError isError) enough (.error isError)
  | leaf isLeaf admitted => exact evaluateTo_leaf isLeaf enough (.scalar admitted)
  | @array _ _ items mark _ ih =>
      obtain ⟨fuel, rfl⟩ := fuel_eq_succ enough
      refine evaluateTo_array (fun item member => ih item member ?_) fun _ _ => .array
      have smaller : item.size < (Expr.array items mark).size := size_lt_of_mem_children member
      omega
  | neg closed _ ih =>
      obtain ⟨fuel, rfl⟩ := fuel_eq_succ enough
      rw [size_unary] at enough
      exact .bind (ih (by omega)) fun operand => .ofTraced fun tensor =>
        tensor.negate closed (le_callDepth _)
  | arith closed fits _ _ leftIH rightIH =>
      obtain ⟨fuel, rfl⟩ := fuel_eq_succ enough
      rw [size_arith] at enough
      refine .ofTraced₂ (leftIH (by omega)) (rightIH (by omega)) fun left right first second => ?_
      exact first.binary closed second fits (le_callDepth _)
  | call closed notRandom _ ih =>
      obtain ⟨fuel, rfl⟩ := fuel_eq_succ enough
      rw [size_call] at enough
      refine .bind (ih (by omega)) fun argument => ?_
      rw [applyFunctionWith_unary notRandom]
      exact .ofTraced fun tensor => UnaryFunction.apply_tensor closed notRandom tensor

/-- Evaluation of nested arrays leaves no error below an operator or a function. -/
theorem evaluateTo_nested (nested : Nested tree) (enough : tree.size ≤ fuel) :
    (evaluateTo controller fuel tree).Finishes (·.staysExact = true) .empty
      (·.buriesError = false) := by
  induction nested generalizing fuel with
  | shaped shaped =>
      exact ((evaluateTo_shaped shaped enough).mono fun _ tensor => tensor.buriesError).restrict
        fun _ => Scalars.permits_of_staysExact
  | @array items mark _ ih =>
      obtain ⟨fuel, rfl⟩ := fuel_eq_succ enough
      refine evaluateTo_array (fun item member => ih item member ?_) fun _ _ => buriesError_array
      have smaller : item.size < (Expr.array items mark).size := size_lt_of_mem_children member
      omega

theorem isFormula_of_isRationalFunction (rational : tree.isRationalFunction = true) :
    tree.isFormula = true := by
  fun_induction isRationalFunction tree with
  | case1 number mark =>
      obtain ⟨_, isFraction⟩ := Number.isFraction_iff.mp rational
      exact isFraction.isExact
  | case2 name mark => rfl
  | case3 operand mark ih => exact ih rational
  | case4 base exponent mark ih =>
      obtain ⟨baseRational, whole⟩ := Bool.and_eq_true_iff.mp rational
      obtain ⟨value, view, _⟩ := (Option.any_eq_true _ _).mp whole
      obtain ⟨_, rfl⟩ := eq_of_asInt? view
      exact Bool.and_eq_true_iff.mpr ⟨ih baseRational, rfl⟩
  | case5 op left right mark _ leftIH rightIH =>
      obtain ⟨leftRational, rightRational⟩ := Bool.and_eq_true_iff.mp rational
      exact Bool.and_eq_true_iff.mpr ⟨leftIH leftRational, rightIH rightRational⟩
  | case6 => contradiction

/-- Why no error arises below the operators of a tree in a run: there are only numbers,
all computations were exact, or the tree is a rational function that has a value
somewhere and no number left the range. -/
inductive Undisturbed (tree : Expr) (trace : List Step) : Prop where
  | numbers {rank : Nat} (shaped : Shaped .numbers rank tree)
  | exactly (exact : ∀ step ∈ trace, step.staysExact = true)
  | defined {valuation : String → Option ℚ} {value : ℚ} (rational : tree.isRationalFunction = true)
      (denotes : tree.denote valuation = some value)
      (inRange : ∀ step ∈ trace, step.staysInRange = true)

/-- Trees with a shape, and arrays of them, are simplified to trees in which no
operator and no function has an error among its operands. -/
theorem simplification_buries_no_error (tree : Expr) (nested : Nested tree) (fuel : Nat)
    (enough : tree.size ≤ fuel) (controller : Option Controller) (random : RandomSource)
    (marks : Nat) :
    ∃ result state, simplify? fuel controller random marks tree = some (result, state) ∧
      (Undisturbed tree state.trace → result.buriesError = false) := by
  have finishes : (evaluateTo controller fuel tree).Finishes _ _ _ :=
    evaluateTo_nested nested enough
  obtain ⟨result, state, run, clean⟩ := finishes.simplify? random marks
  refine ⟨result, state, run, fun undisturbed => ?_⟩
  cases undisturbed with
  | exactly exact => exact clean exact
  | numbers shaped =>
      have finishes : (evaluateTo controller fuel tree).Finishes _ _ _ :=
        evaluateTo_shaped shaped enough
      obtain ⟨_, _, sameRun, tensor⟩ := finishes.simplify? random marks
      rw [run, Option.some.injEq, Prod.mk.injEq] at sameRun
      obtain ⟨rfl, rfl⟩ := sameRun
      exact (tensor fun _ _ => rfl).buriesError
  | defined rational denotes inRange =>
      obtain ⟨_, _, sameRun, means⟩ := simplify?_means
        (means_rationals_iff.mpr ⟨rational, denotes⟩) enough controller random marks
      rw [run, Option.some.injEq, Prod.mk.injEq] at sameRun
      obtain ⟨rfl, rfl⟩ := sameRun
      exact buriesError_formula
        (isFormula_of_isRationalFunction (means_rationals_iff.mp (means inRange)).1)

/-- An array of a product with an error in it and the difference of `sin(x)` and
`2 * x / 3`. -/
def arrayWithError : Expr :=
  .array [.arith .mul (.arith .add (.var "x") (.typeMismatch "text")) (.int 2),
    .arith .sub (.call .sin (.var "x")) (.arith .div (.arith .mul (.int 2) (.var "x")) (.int 3))]

theorem arrayWithError_buries_no_error :
    Nested arrayWithError ∧
    ∃ result state, simplify? 14 none (.ofSeed 1) 0 arrayWithError = some (result, state) ∧
      Undisturbed arrayWithError state.trace ∧ result.buriesError = false := by
  have evaluated : (simplify? 14 none (.ofSeed 1) 0 arrayWithError).all
      (·.2.trace.all Step.staysExact) = true := by decide +kernel
  have x : Shaped .formulas 0 (.var "x") := .leaf rfl rfl
  have whole (value : Int) : Shaped .formulas 0 (.int value) := .leaf rfl rfl
  have fault : Shaped .formulas 0 (.typeMismatch "text") := .error rfl
  have sine : Shaped .formulas 0 (.call .sin (.var "x")) :=
    .widen rfl (.call rfl (by decide) (.leaf rfl rfl : Shaped .symbols 0 (.var "x")))
  have shaped : Shaped .formulas 1 arrayWithError :=
    .array (List.forall_mem_cons.mpr ⟨.arith rfl rfl (.arith rfl rfl x fault) (whole 2),
      List.forall_mem_singleton.mpr (.arith rfl rfl sine
        (.arith rfl rfl (.arith rfl rfl (whole 2) x) (whole 3)))⟩)
  obtain ⟨result, state, run, clean⟩ := simplification_buries_no_error arrayWithError
    (.shaped shaped) 14 (by decide) none (.ofSeed 1) 0
  rw [run, Option.all_some, List.all_eq_true] at evaluated
  exact ⟨.shaped shaped, result, state, run, .exactly evaluated, clean (.exactly evaluated)⟩

/-- The quotient of `2 * x` by `0` is simplified to a product with an undefined number
in it, which arises when the factor `2` is cancelled against the divisor.  The sine of
an array with an error in it is an array with the sine of the error. -/
theorem zero_divisor_and_array_bury_errors :
    (simplify? 5 none (.ofSeed 1) 0
      (.arith .div (.arith .mul (.int 2) (.var "x")) (.int 0))).any (·.1.buriesError) = true ∧
    (simplify? 3 none (.ofSeed 1) 0
      (.call .sin (.array [.typeMismatch "text"]))).any (·.1.buriesError) = true := by
  decide +kernel

end Expr

end SymbolicAlgebra
