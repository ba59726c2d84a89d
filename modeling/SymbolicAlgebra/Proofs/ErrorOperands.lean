import SymbolicAlgebra.Evaluate
import SymbolicAlgebra.Proofs.Soundness.Engine

/-!
# Operands that are errors

Error leaves and undefined numbers are operands that an operation hands back.  Each entry
to the algebra has a rule of its own for this: arithmetic, relations and connectives look
for the leftmost error of two operands, negations and the solver look at their only one,
and functions at a list of arguments of any length.  In all of them the rule comes first,
so the result is the operand itself, made by no step and with no new mark, and it does not
matter what the other operands are or whether there are as many as there should be.

Differentiation is the exception.  It asks for the kind of a leaf before it asks whether a
number is undefined, so error leaves are handed back, but the derivative of an undefined
number is zero.
-/

namespace SymbolicAlgebra

namespace Expr

variable {error left right operand tree : Expr} {operands : List Expr}

/-! ## The leftmost error -/

/-- The operand is an error and none before it is one. -/
def IsLeftmostError (error : Expr) (operands : List Expr) : Prop :=
  error.isError = true ∧ ∃ before after,
    operands = before ++ error :: after ∧ ∀ operand ∈ before, operand.isError = false

theorem find?_isError_eq_some_iff :
    operands.find? isError = some error ↔ error.IsLeftmostError operands := by
  simp [List.find?_eq_some_iff_append, IsLeftmostError]

theorem firstError?_eq_find? (left right : Expr) :
    firstError? left right = [left, right].find? isError := by
  unfold firstError?
  cases leftError : left.isError <;> cases rightError : right.isError <;>
    simp [List.find?, leftError, rightError]

theorem IsLeftmostError.firstError?_eq_some (leftmost : error.IsLeftmostError [left, right]) :
    firstError? left right = some error :=
  (firstError?_eq_find? left right).trans (find?_isError_eq_some_iff.mpr leftmost)

theorem IsLeftmostError.unique {other : Expr} (leftmost : error.IsLeftmostError operands)
    (otherLeftmost : other.IsLeftmostError operands) : error = other :=
  Option.some.inj ((find?_isError_eq_some_iff.mpr leftmost).symm.trans
    (find?_isError_eq_some_iff.mpr otherLeftmost))

theorem isLeftmostError_singleton_iff :
    error.IsLeftmostError [operand] ↔ operand.isError = true ∧ operand = error := by
  rw [← find?_isError_eq_some_iff, List.find?_singleton]
  split <;> simp_all

/-- Where there is an error, there is a leftmost one. -/
theorem exists_isLeftmostError (found : ∃ operand ∈ operands, operand.isError = true) :
    ∃ error, IsLeftmostError error operands := by
  obtain ⟨error, leftmost⟩ := Option.isSome_iff_exists.mp (List.find?_isSome.mpr found)
  exact ⟨error, find?_isError_eq_some_iff.mp leftmost⟩

/-! ## Operators -/

theorem calculate_of_isLeftmostError {op : Operator} (binary : op.arity = 2)
    (leftmost : error.IsLeftmostError [left, right]) : calculate op left right = pure error := by
  have found := leftmost.firstError?_eq_some
  cases op with
  | unary op => cases binary
  | arith op =>
      obtain ⟨depth, engine⟩ := arithmetic_eq_applyBinary op left right
      rw [calculate, engine, applyBinary, combine_of_firstError? found]
      rfl
  | relation comparison =>
      rw [calculate, compareBy, found]
      rfl
  | connective link =>
      unfold calculate connect
      rw [found]
      rfl

theorem negation_of_isError (isError : operand.isError = true) :
    operand.negation = pure operand := by
  cases operand with
  | number | error => simp [negation, isError]
  | _ => cases isError

theorem calculate_unary_of_isError (op : UnaryOp) (ignored : Expr)
    (isError : operand.isError = true) : calculate (.unary op) operand ignored = pure operand := by
  cases op with
  | neg =>
      obtain ⟨depth, engine⟩ := neg_eq_applyNegation operand
      rw [calculate, engine, applyNegation, if_pos isError]
  | not =>
      rw [calculate, negation_of_isError isError]
      rfl

/-! ## Functions, equations and derivatives -/

/-- Random numbers are drawn for lengths that are no errors only, so permission to draw
them does not matter. -/
theorem applyFunctionWith_of_isLeftmostError (controller : Option Controller)
    (function : Function) (leftmost : error.IsLeftmostError operands) :
    applyFunctionWith controller function operands = pure error := by
  have applied : Evaluation.ofTraced (function.apply operands) = pure error := by
    unfold Function.apply
    rw [find?_isError_eq_some_iff.mpr leftmost]
    rfl
  unfold applyFunctionWith
  split
  · rename_i length
    rw [(isLeftmostError_singleton_iff.mp leftmost).1, Bool.not_true, Bool.and_false,
      if_neg Bool.false_ne_true, applied]
  · exact applied

theorem solve_of_isError (name : String) (isError : tree.isError = true) :
    tree.solve name = pure tree :=
  if_pos isError

/-- Error leaves are handed back, and undefined numbers are constants like all others. -/
theorem differentiate_of_isError (name : String) (isError : tree.isError = true) :
    tree.differentiate name = pure (if tree.isNaN then .int 0 else tree) := by
  obtain ⟨depth, deep⟩ : ∃ depth, depthFor tree.size = depth + 1 :=
    Nat.exists_eq_succ_of_ne_zero (Nat.two_pow_pos _).ne'
  rw [differentiate, deep, differentiateTo]
  cases tree with
  | number value mark =>
      have undefined : (Expr.number value mark).isNaN = true := isError
      rw [if_pos undefined]
      rfl
  | error => rfl
  | _ => cases isError

end Expr

/-! ## All operations -/

theorem Evaluation.pure_injective {Result : Type} {first second : Result}
    (same : (pure first : Evaluation Result) = pure second) : first = second :=
  congrArg Prod.fst (Option.some.inj (congrFun same (.start .empty (.ofSeed 0) 0)))

open SymbolicAlgebra.Expr

/-- An entry to the algebra, with the operands that it is given. -/
inductive Operation where
  | unary (op : UnaryOp) (operand ignored : Expr)
  | binary (op : Operator) (takesTwo : op.arity = 2) (left right : Expr)
  | application (controller : Option Controller) (function : Function) (arguments : List Expr)
  | solution (equation : Expr) (name : String)
  | derivative (tree : Expr) (name : String)

namespace Operation

/-- The operands that the operation looks at, from left to right. -/
def operands : Operation → List Expr
  | unary _ operand _ => [operand]
  | binary _ _ left right => [left, right]
  | application _ _ arguments => arguments
  | solution equation _ => [equation]
  | derivative tree _ => [tree]

/-- The computation that the operation starts. -/
def run : Operation → Evaluation Expr
  | unary op operand ignored => Evaluation.ofTraced (calculate (.unary op) operand ignored)
  | binary op _ left right => Evaluation.ofTraced (calculate op left right)
  | application controller function arguments => applyFunctionWith controller function arguments
  | solution equation name => Evaluation.ofTraced (equation.solve name)
  | derivative tree name => Evaluation.ofTraced (tree.differentiate name)

def isDerivative : Operation → Bool
  | derivative _ _ => true
  | _ => false

variable {operation : Operation} {error : Expr}

theorem run_of_isLeftmostError (leftmost : error.IsLeftmostError operation.operands) :
    operation.run = pure (if operation.isDerivative && error.isNaN then .int 0 else error) := by
  cases operation with
  | unary op operand ignored =>
      obtain ⟨isError, rfl⟩ := isLeftmostError_singleton_iff.mp leftmost
      rw [run, calculate_unary_of_isError op ignored isError]
      rfl
  | binary op takesTwo left right =>
      rw [run, calculate_of_isLeftmostError takesTwo leftmost]
      rfl
  | application controller function arguments =>
      exact applyFunctionWith_of_isLeftmostError controller function leftmost
  | solution equation name =>
      obtain ⟨isError, rfl⟩ := isLeftmostError_singleton_iff.mp leftmost
      rw [run, solve_of_isError name isError]
      rfl
  | derivative tree name =>
      obtain ⟨isError, rfl⟩ := isLeftmostError_singleton_iff.mp leftmost
      rw [run, differentiate_of_isError name isError]
      rfl

/-- An operation with an error among its operands hands back the leftmost one, unless it
is the derivative of an undefined number, which is zero. -/
theorem hands_back_leftmost_error_iff (operation : Operation)
    (found : ∃ operand ∈ operation.operands, operand.isError = true) :
    ∃ error, IsLeftmostError error operation.operands ∧
      (operation.run = pure error ↔ ¬ (operation.isDerivative = true ∧ error.isNaN = true)) ∧
      (operation.isDerivative = true → error.isNaN = true → operation.run = pure (.int 0)) := by
  obtain ⟨error, leftmost⟩ := exists_isLeftmostError found
  refine ⟨error, leftmost, ⟨?_, fun meets => ?_⟩, fun derivative undefined => ?_⟩
  · rintro handedBack ⟨derivative, undefined⟩
    rw [run_of_isLeftmostError leftmost, derivative, undefined] at handedBack
    obtain rfl : Expr.int 0 = error := Evaluation.pure_injective handedBack
    cases undefined
  · rw [run_of_isLeftmostError leftmost, if_neg (by simpa using meets)]
  · rw [run_of_isLeftmostError leftmost, derivative, undefined]
    rfl

/-- Of an error leaf and an undefined number, the one that comes first is handed back. -/
theorem greatest_of_two_errors_is_the_first :
    let undefined : Expr := .number .nan
    let fault : Expr := typeMismatch "message"
    applyFunctionWith none (.binary .max) [.int 1, undefined, fault] = pure undefined ∧
      Evaluation.ofTraced (fault.differentiate "x") = pure fault := by
  have undefinedIsError : (Expr.number .nan).isError = true := by decide +kernel
  obtain ⟨first, firstLeftmost, applied, -⟩ :=
    hands_back_leftmost_error_iff
      (.application none (.binary .max) [.int 1, .number .nan, typeMismatch "message"])
      ⟨_, .tail _ (.head _), undefinedIsError⟩
  obtain rfl := firstLeftmost.unique
    ⟨undefinedIsError, [.int 1], [typeMismatch "message"], rfl, List.forall_mem_singleton.mpr rfl⟩
  obtain ⟨same, sameLeftmost, derived, -⟩ :=
    hands_back_leftmost_error_iff (.derivative (typeMismatch "message") "x") ⟨_, .head _, rfl⟩
  obtain rfl := (isLeftmostError_singleton_iff.mp sameLeftmost).2
  exact ⟨applied.mpr nofun, derived.mpr nofun⟩

/-- The derivative of an undefined number is an integer and no longer undefined. -/
theorem derivative_of_undefined_number_is_zero :
    let undefined : Expr := .number .nan
    undefined.isError = true ∧ undefined.differentiate "x" = pure (.int 0) ∧
      (Expr.int 0).isError = false := by
  have undefinedIsError : (Expr.number .nan).isError = true := by decide +kernel
  have undefined : (Expr.number .nan).isNaN = true := undefinedIsError
  refine ⟨undefinedIsError, ?_, rfl⟩
  rw [differentiate_of_isError "x" undefinedIsError, if_pos undefined]

end Operation

end SymbolicAlgebra
