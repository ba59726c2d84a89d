import SymbolicAlgebra.Expr.Variables
import SymbolicAlgebra.Function.Catalogue

/-!
# Solving equations

An equation is solved for a variable by moving operations from the side that
holds the variable to the other side, where their inverses are applied.  A
binary operation is moved only when its other operand is known not to mention
the variable.  Square roots are principal.  An equation that cannot be solved
to the end is returned as far as it came, marked as unresolved.
-/

namespace SymbolicAlgebra

/-- What is known about the occurrence of a variable in a tree. -/
inductive Presence where
  | found
  | absent
  | unknown
deriving DecidableEq, Repr

namespace Presence

/-- The presence in a node from the presences in two of its parts. -/
def join : Presence → Presence → Presence
  | found, _ | _, found => found
  | absent, absent => absent
  | _, _ => unknown

end Presence

namespace Expr

/-- The solver looks through this node for the variable: arithmetic, negations
and square roots. -/
def isTransparent : Expr → Bool
  | .unary _ _ _ | .arith _ _ _ _ | .call .sqrt _ _ => true
  | _ => false

/-- The presence of a variable in a leaf. -/
def leafPresence (name : String) : Expr → Presence
  | .var other _ => if other = name then .found else .absent
  | .error _ _ => .unknown
  | _ => .absent

/-- The presence of a variable in a tree, as far as the solver looks. -/
def presence (name : String) : Expr → Presence :=
  fold (leafPresence name) fun node parts =>
    if node.isTransparent then parts.foldl Presence.join .absent else .unknown

/-- The tree is known not to mention the variable. -/
def isFree (name : String) (tree : Expr) : Bool := tree.presence name = .absent

/-- A quotient, with a note of what was divided by: where the divisor is zero an
equation may lose or gain solutions. -/
def dividedBy (tree divisor : Expr) : Traced Expr := do
  Traced.step (.divided divisor)
  tree.div divisor

/-- The inverse of a power applied to the other side. -/
def rootBy (exponent right : Expr) : Traced Expr :=
  if exponent == .int 2 then UnaryFunction.sqrt.apply right
  else do right.pow (← (Expr.int 1).dividedBy exponent)

/-- The operation at the root of the left side moved to the right side: the
operand that stays and the new right side. -/
def peelArith (name : String) (op : ArithOp) (first second right : Expr) :
    Rule (Expr × Expr) :=
  if isFree name second then do
    match op with
    | .add => return (first, ← right.sub second)
    | .sub => return (first, ← right.add second)
    | .mul => return (first, ← right.dividedBy second)
    | .div => return (first, ← right.mul second)
    | .pow => return (first, ← rootBy second right)
  else if isFree name first then do
    match op with
    | .add => return (second, ← right.sub first)
    | .sub => return (second, ← first.sub right)
    | .mul => return (second, ← right.dividedBy first)
    | .div => return (second, ← first.dividedBy right)
    | .pow => failure
  else failure

/-- One inverse step on an equation: the operand that stays and the new other
side. -/
def inverseStep (name : String) (left right : Expr) : Rule (Expr × Expr) :=
  match left with
  | .arith op first second _ => peelArith name op first second right
  | .unary .neg operand _ => do return (operand, ← right.neg)
  | .unary .not operand _ => do return (operand, ← right.negation)
  | .call .sqrt operand _ => do return (operand, ← right.pow (.int 2))
  | _ => failure

/-- One inverse step on an equation, noted in the trace. -/
def peel (name : String) (left right : Expr) : Rule (Expr × Expr) := do
  let (rest, inverse) ← inverseStep name left right
  Traced.step (.peeled left rest inverse)
  pure (rest, inverse)

/-- The equation as the solver leaves it. -/
def solved (name : String) (left right : Expr) : Marking Expr := do
  let equation ← make (.relation .equal left right)
  if left.asVar? = some name then pure equation else equation.unresolvedSolution name

/-- Inverse steps while one applies, at most the given number of them. -/
def isolate (name : String) : Nat → Expr → Expr → Traced Expr
  | 0, left, right => solved name left right
  | steps + 1, left, right =>
      if left.asVar? = some name then solved name left right
      else do
        match ← (peel name left right).run with
        | none => solved name left right
        | some (rest, inverse) =>
            if inverse.isError then pure inverse else isolate name steps rest inverse

/-- An equation solved for a variable.  Each step leaves a proper part of the
left side, so as many steps as it has nodes are enough. -/
def solve (equation : Expr) (name : String) : Traced Expr :=
  if equation.isError then pure equation
  else
    match equation with
    | .relation .equal left right _ =>
        match left.presence name, right.presence name with
        | .found, .found | .absent, .absent => equation.unresolvedSolution name
        | _, .found => isolate name right.size right left
        | _, _ => isolate name left.size left right
    | _ => make (.typeMismatch "solve expects an equation")

end Expr

end SymbolicAlgebra
