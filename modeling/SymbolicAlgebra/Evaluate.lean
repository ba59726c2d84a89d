import SymbolicAlgebra.Derivative
import SymbolicAlgebra.Pause
import SymbolicAlgebra.Random
import SymbolicAlgebra.Scope
import SymbolicAlgebra.Solve

/-!
# Evaluation

Evaluation resolves bound variables, folds operators and functions through the
arithmetic engine and runs control constructs.  Unbound variables stay
symbolic, so evaluation in an empty scope is simplification.

A loop may run forever and the value of a binding is evaluated anew at every
use, so evaluation is given a fuel that bounds the nesting of evaluations and
the rounds of each loop.  An evaluation either finishes with a value or runs out
of fuel, and more fuel never changes the value of one that finished.
-/

namespace SymbolicAlgebra

/-- What an evaluation reads and changes: the scope, the source of random
numbers, the number of looks at the stop flag, the first number not given out as
a mark, and the steps taken so far, the latest first. -/
structure EvalState where
  scope : Scope
  random : RandomSource
  looks : Nat
  marks : Nat
  steps : List Step

namespace EvalState

/-- The state at the start of an evaluation. -/
def start (scope : Scope) (random : RandomSource) (marks : Nat) : EvalState :=
  ⟨scope, random, 0, marks, []⟩

/-- The steps taken so far, in order. -/
def trace (state : EvalState) : List Step := state.steps.reverse

end EvalState

/-- A computation on the state of an evaluation that may run out of fuel. -/
abbrev Evaluation := StateT EvalState Option

namespace Evaluation

variable {Result : Type}

/-- A traced computation as part of an evaluation. -/
def ofTraced (computation : Traced Result) : Evaluation Result := fun state =>
  let outcome := computation.run state.marks
  some (outcome.value,
    { state with marks := outcome.marks, steps := outcome.steps.reverse ++ state.steps })

instance : MonadLift Traced Evaluation := ⟨ofTraced⟩

/-- Takes one step. -/
def note (step : Step) : Evaluation Unit := ofTraced (Traced.step step)

/-- Out of fuel. -/
def unfinished : Evaluation Result := fun _ => none

/-- Draws some random numbers. -/
def draw (count : Nat) : Evaluation (List Float) := fun state =>
  let (drawn, random) := state.random.take count []
  some (drawn, { state with random := random })

/-- Looks at the stop flag, which is never set without a controller. -/
def isStopped (controller : Option Controller) : Evaluation Bool := fun state =>
  some (controller.any (·.stopped state.looks), { state with looks := state.looks + 1 })

/-- Changes the scope. -/
def changeScope (change : Scope → Scope) : Evaluation Unit := fun state =>
  some ((), { state with scope := change state.scope })

/-- An evaluation inside a new frame, which is closed at the end. -/
def inFrame (compute : Evaluation Result) : Evaluation Result := do
  changeScope Scope.push
  let result ← compute
  changeScope fun scope => scope.pop?.getD scope
  pure result

/-- The results of an evaluation on each element of a list, from left to
right. -/
def forEach (compute : Expr → Evaluation Expr) : List Expr → Evaluation (List Expr)
  | [] => pure []
  | item :: items => do
      let result ← compute item
      let results ← forEach compute items
      pure (result :: results)

end Evaluation

namespace Expr

/-- Loops are permitted. -/
def loopsAllowed (controller : Option Controller) : Bool := controller.any (·.allowLoops)

/-- Random numbers are permitted. -/
def randomAllowed (controller : Option Controller) : Bool := controller.any (·.allowRandom)

/-- The longest list of random numbers. -/
def maxRandomList : Int := 1048576

/-- The leaves of some doubles, behind those already made, which are given the
latest first. -/
def ofReals : List Expr → List Float → Marking (List Expr)
  | done, [] => pure done.reverse
  | done, value :: values => do
      let leaf ← make (.real value)
      ofReals (leaf :: done) values

/-- A list of random numbers of the given length. -/
def drawRandomList (length : Expr) : Evaluation Expr :=
  match length.asNumber?.bind Number.integerValue? with
  | some count =>
      if 0 ≤ count ∧ count ≤ maxRandomList then do
        let drawn ← Evaluation.draw count.toNat
        make (.array (← ofReals [] drawn))
      else make (.outOfBounds ("randlist length " ++ toString count ++ " is out of range"))
  | none =>
      if length.isConstant then make (.typeMismatch "randlist expects an integer length")
      else make (.call .randList length)

/-- A function applied to evaluated arguments.  Only here are random numbers
drawn, and only with permission. -/
def applyFunctionWith (controller : Option Controller) (function : Function)
    (arguments : List Expr) : Evaluation Expr :=
  match function, arguments with
  | .unary .randList, [length] =>
      if randomAllowed controller && !length.isError then drawRandomList length
      else Evaluation.ofTraced (function.apply arguments)
  | _, _ => Evaluation.ofTraced (function.apply arguments)

/-- The value of a variable, which is the given leaf when the variable is not
bound.  A value that is not final is evaluated in the frames outside the one
that binds it, and in an empty scope outside the root. -/
def resolve (evaluate : Expr → Evaluation Expr) (leaf : Expr) (name : String) :
    Evaluation Expr := do
  let state ← get
  match Scope.split? name state.scope.frames with
  | none => pure leaf
  | some (inner, value, outer) =>
      if value.asVar? = some name || value.isConstant || value.isError then pure value
      else do
        Evaluation.changeScope fun _ => Scope.ofFrames outer
        let result ← evaluate value
        Evaluation.changeScope fun scope =>
          if outer.isEmpty then state.scope else Scope.ofFrames (inner ++ scope.frames)
        pure result

/-- A derivative is unresolved when it only wraps the given tree. -/
def isUnresolvedDerivativeOf (tree : Expr) : Expr → Bool
  | .call₂ .diff inner _ _ => inner == tree
  | _ => false

/-- The value of a derivative node.  The derivative is taken before variables
are resolved, so that a bound variable does not make its function constant. -/
def evaluateDerivative (evaluate : Expr → Evaluation Expr) (tree : Expr) :
    Expr → Evaluation Expr
  | .var name _ => do
      let derivative ← Evaluation.ofTraced (tree.differentiate name)
      if isUnresolvedDerivativeOf tree derivative then pure derivative else evaluate derivative
  | _ => make (.typeMismatch "diff expects a variable as second argument")

/-- The value of a solution node.  The unknown stays symbolic while the
equation is evaluated. -/
def evaluateSolution (evaluate : Expr → Evaluation Expr) (equation : Expr) :
    Expr → Evaluation Expr
  | unknown@(.var name _) => do
      let evaluated ← Evaluation.inFrame do
        Evaluation.changeScope fun scope => scope.bind name unknown
        evaluate equation
      Evaluation.ofTraced (evaluated.solve name)
  | _ => make (.typeMismatch "solve expects a variable as second argument")

/-- The value of a conditional: that of the branch selected by the test, or a
conditional again when the test is symbolic. -/
def evaluateConditional (evaluate : Expr → Evaluation Expr)
    (test consequence alternative : Expr) : Evaluation Expr := do
  let decision ← evaluate test
  match decision.asBool? with
  | some true => evaluate consequence
  | some false => evaluate alternative
  | none =>
      if decision.isError then pure decision
      else if decision.isConstant then make (.typeMismatch "test neither true nor false")
      else do
        let first ← evaluate consequence
        let second ← evaluate alternative
        make (.conditional decision first second)

/-- The tree is the error leaf of a stopped evaluation. -/
def isCancellation (tree : Expr) : Bool := tree.faultKind? = some .cancelled

/-- The rounds of a loop.  Its value is that of the last round. -/
def runLoop (controller : Option Controller) (evaluate : Expr → Evaluation Expr)
    (test body : Expr) (step : Option Expr) : Nat → Expr → Evaluation Expr
  | 0, _ => Evaluation.unfinished
  | fuel + 1, last => do
      if ← Evaluation.isStopped controller then
        Evaluation.note .loopCancelled
        make (.cancelled "Stopped")
      else
        let decision ← evaluate test
        match decision.asBool? with
        | some false => pure last
        | none =>
            if decision.isError then pure decision
            else make (.typeMismatch "test neither true nor false")
        | some true => do
            let value ← evaluate body
            if value.isCancellation then pure value
            else
              match step with
              | none => runLoop controller evaluate test body step fuel value
              | some advance => do
                  let advanced ← evaluate advance
                  if advanced.isCancellation then pure advanced
                  else runLoop controller evaluate test body step fuel value

/-- A loop from its first round on.  Its value is undefined when there is none. -/
def startLoop (controller : Option Controller) (evaluate : Expr → Evaluation Expr)
    (test body : Expr) (step : Option Expr) (fuel : Nat) : Evaluation Expr := do
  let undefined ← ofNumber Number.nan
  runLoop controller evaluate test body step fuel undefined

/-- The terms of a sum from an index on, added to a start. -/
def sumTerms (controller : Option Controller) (evaluate : Expr → Evaluation Expr)
    (name : String) (body : Expr) : Nat → Int → Expr → Evaluation Expr
  | 0, _, total => pure total
  | count + 1, index, total => do
      if ← Evaluation.isStopped controller then
        Evaluation.note .sumCancelled
        make (.cancelled "Stopped")
      else
        let value ← make (.int index)
        Evaluation.changeScope fun scope => scope.bind name value
        let term ← evaluate body
        let next ← Evaluation.ofTraced (total.add term)
        if next.isError then pure next
        else sumTerms controller evaluate name body count (index + 1) next

/-- The value of a sum over the integers between two bounds. -/
def evaluateSum (controller : Option Controller) (evaluate : Expr → Evaluation Expr)
    (body index first last : Expr) : Evaluation Expr :=
  match index.asVar? with
  | none => make (.typeMismatch "sum expects a variable as index")
  | some name => do
      let lower ← evaluate first
      let upper ← evaluate last
      match firstError? lower upper, lower.asInt?, upper.asInt? with
      | some bound, _, _ => pure bound
      | none, some low, some high =>
          Evaluation.inFrame
            (sumTerms controller evaluate name body (high - low + 1).toNat low (.int 0))
      | none, _, _ => make (.typeMismatch "sum bounds must be integers")

/-- The value of a loop with a counter, in a frame of its own. -/
def evaluateFor (controller : Option Controller) (fuel : Nat)
    (evaluate : Expr → Evaluation Expr) (start test step body : Expr) : Evaluation Expr :=
  Evaluation.inFrame do
    let started ← evaluate start
    if started.isError then pure started
    else startLoop controller evaluate test body (some step) fuel

/-- A loop, or its node unevaluated when loops are not permitted. -/
def guardLoop (controller : Option Controller) (construct : Construct) (node : Expr)
    (loop : Evaluation Expr) : Evaluation Expr :=
  if loopsAllowed controller then loop
  else do
    Evaluation.note (.loopRefused construct)
    pure node

/-- One level of evaluation, over the evaluation of other trees. -/
def evaluateNode (controller : Option Controller) (fuel : Nat)
    (evaluate : Expr → Evaluation Expr) : Expr → Evaluation Expr
  | leaf@(.var name _) => resolve evaluate leaf name
  | leaf@(.number _ _) | leaf@(.bool _ _) | leaf@(.char _ _)
  | leaf@(.text _ _) | leaf@(.error _ _) => pure leaf
  | .array items _ => do make (.array (← Evaluation.forEach evaluate items))
  | .unary .neg operand _ => do
      let value ← evaluate operand
      Evaluation.ofTraced value.neg
  | .unary .not operand _ => do (← evaluate operand).negation
  | .arith op left right _ => do
      let first ← evaluate left
      let second ← evaluate right
      Evaluation.ofTraced (arithmetic op first second)
  | .relation comparison left right _ => do
      let first ← evaluate left
      let second ← evaluate right
      compareBy comparison first second
  | .connective link left right _ => do
      let first ← evaluate left
      if first.asBool? = some link.absorbing then pure first
      else do
        let second ← evaluate right
        connect link first second
  | .call function argument _ => do
      let value ← evaluate argument
      applyFunctionWith controller (.unary function) [value]
  | .call₂ .diff tree name _ => evaluateDerivative evaluate tree name
  | .call₂ .solve equation name _ => evaluateSolution evaluate equation name
  | .call₂ function first second _ => do
      let left ← evaluate first
      let right ← evaluate second
      applyFunctionWith controller (.binary function) [left, right]
  | .conditional test consequence alternative _ =>
      evaluateConditional evaluate test consequence alternative
  | node@(.whileLoop test body _) =>
      guardLoop controller .whileLoop node
        (startLoop controller evaluate test body none fuel)
  | node@(.forLoop start test step body _) =>
      guardLoop controller .forLoop node
        (evaluateFor controller fuel evaluate start test step body)
  | node@(.summation body index first last _) =>
      guardLoop controller .summation node
        (evaluateSum controller evaluate body index first last)
  | .pause seconds _ => do
      let value ← evaluate seconds
      let interrupted ← Evaluation.isStopped controller
      Evaluation.ofTraced (pauseFor controller interrupted value)
  | .assignment (.var name _) value _ => do
      let result ← evaluate value
      Evaluation.changeScope fun scope => scope.assign name result
      pure result
  | .assignment _ _ _ => make (.typeMismatch "only variables can be assigned")

/-- Evaluation with the given fuel. -/
def evaluateTo (controller : Option Controller) : Nat → Expr → Evaluation Expr
  | 0, _ => Evaluation.unfinished
  | fuel + 1, tree => evaluateNode controller fuel (evaluateTo controller fuel) tree

/-- The value of a tree in a scope and the state after the evaluation, absent
when the fuel does not suffice. -/
def evaluate? (fuel : Nat) (controller : Option Controller) (scope : Scope)
    (random : RandomSource) (marks : Nat) (tree : Expr) : Option (Expr × EvalState) :=
  (evaluateTo controller fuel tree).run (.start scope random marks)

/-- The simplified tree: its value in an empty scope. -/
def simplify? (fuel : Nat) (controller : Option Controller) (random : RandomSource)
    (marks : Nat) (tree : Expr) : Option (Expr × EvalState) :=
  evaluate? fuel controller .empty random marks tree

/-- The real value of a tree under an assignment of doubles to variables, NaN
when the value is not real. -/
def evaluateReal? (fuel : Nat) (assignment : List (String × Float)) (random : RandomSource)
    (marks : Nat) (tree : Expr) : Option (Float × EvalState) := do
  let (leaves, marks) := (ofReals [] (assignment.map (·.2))).run marks
  let scope := Scope.ofBindings ((assignment.map (·.1)).zip leaves)
  let (value, state) ← evaluate? fuel none scope random marks tree
  pure ((value.asNumber?.bind Number.toFloat?).getD Double.nan, state)

end Expr

end SymbolicAlgebra
