import SymbolicAlgebra.Expr.Variables
import SymbolicAlgebra.Function.Catalogue

/-!
# Differentiation

The derivative of a tree with respect to a variable, built through the
arithmetic engine so that it comes out simplified.  Sums, products, quotients
and powers follow their rules, functions the chain rule, and conditions and the
bounds of sums are kept.  What has no rule stays an unresolved derivative.

The rule for a general power differentiates a product that is not part of the
given tree, so the recursion is measured by a depth, which is never used up; at depth
zero every derivative would be undefined.
-/

namespace SymbolicAlgebra

/-- A depth that the derivative of a tree of the given size does not use up. -/
def depthFor (size : Nat) : Nat := Nat.pow 2 (3 * size + 8)

namespace Expr

/-- The derivatives of the operators.  The node is given beside its parts. -/
def differentiateArith (derive : Expr → Traced Expr) (name : String) (node : Expr)
    (op : ArithOp) (left right : Expr) : Traced Expr :=
  match op with
  | .add => do
      let first ← derive left
      let second ← derive right
      first.add second
  | .sub => do
      let first ← derive left
      let second ← derive right
      first.sub second
  | .mul => do
      let first ← (← derive left).mul right
      let second ← left.mul (← derive right)
      first.add second
  | .div => do
      let first ← (← derive left).mul right
      let second ← left.mul (← derive right)
      let numerator ← first.sub second
      let denominator ← right.pow (.int 2)
      numerator.div denominator
  | .pow =>
      if !right.containsVariable name then do
        let lowered ← left.pow (← right.sub (.int 1))
        let outer ← right.mul lowered
        outer.mul (← derive left)
      else if left == euler then do
        (← derive right).mul node
      else do
        let logarithm ← UnaryFunction.ln.apply left
        let exponent ← right.mul logarithm
        (← derive exponent).mul node

/-- The derivative of a function times the derivative of its argument, by the
chain rule. -/
def chainRule (function : UnaryFunction) (node argument inner : Expr) (name : String) :
    Traced Expr :=
  match function with
  | .sin => do (← UnaryFunction.cos.apply argument).mul inner
  | .cos => do (← (← UnaryFunction.sin.apply argument).neg).mul inner
  | .tan => do inner.div (← (← UnaryFunction.cos.apply argument).pow (.int 2))
  | .atan => do inner.div (← (Expr.int 1).add (← argument.pow (.int 2)))
  | .sinh => do (← UnaryFunction.cosh.apply argument).mul inner
  | .cosh => do (← UnaryFunction.sinh.apply argument).mul inner
  | .tanh => do inner.div (← (← UnaryFunction.cosh.apply argument).pow (.int 2))
  | .exp => do (← UnaryFunction.exp.apply argument).mul inner
  | .ln => inner.div argument
  | .sqrt => do inner.div (← (Expr.int 2).mul (← UnaryFunction.sqrt.apply argument))
  | .abs => do (← UnaryFunction.sign.apply argument).mul inner
  | .norm => do
      let scaled ← argument.mul inner
      scaled.div (← UnaryFunction.norm.apply argument)
  | .conj => UnaryFunction.conj.apply inner
  | .sign | .fact | .det | .randList => node.unresolvedDerivative name

/-- One level of differentiation, over the derivatives of smaller trees. -/
def differentiateNode (derive : Expr → Traced Expr) (name : String) : Expr → Traced Expr
  | .var other _ => pure (.int (if other = name then 1 else 0))
  | node@(.error _ _) => pure node
  | .number _ _ | .bool _ _ | .char _ _ | .text _ _ => pure (.int 0)
  | .array items _ => do make (.array (← Traced.forEach derive items))
  | .conditional test consequence alternative _ => do
      let first ← derive consequence
      let second ← derive alternative
      make (.conditional test first second)
  | node@(.summation body index first last _) =>
      if index.asVar? = some name then node.unresolvedDerivative name
      else do make (.summation (← derive body) index first last)
  | node@(.whileLoop _ _ _) | node@(.forLoop _ _ _ _ _) | node@(.pause _ _)
  | node@(.assignment _ _ _) => node.unresolvedDerivative name
  | node =>
      if !node.containsVariable name then pure (.int 0)
      else
        match node with
        | .unary .neg operand _ => do (← derive operand).neg
        | .arith op left right _ => differentiateArith derive name node op left right
        | .call function argument _ => do
            let inner ← derive argument
            chainRule function node argument inner name
        | .call₂ .max first second _ => do
            let left ← derive first
            let right ← derive second
            make (.conditional (← make (.relation .greater first second)) left right)
        | .call₂ .min first second _ => do
            let left ← derive first
            let right ← derive second
            make (.conditional (← make (.relation .less first second)) left right)
        | _ => node.unresolvedDerivative name

/-- The derivative to a given depth. -/
def differentiateTo : Nat → String → Expr → Traced Expr
  | 0, _, _ => ofNumber Number.nan
  | depth + 1, name, tree => differentiateNode (differentiateTo depth name) name tree

/-- The derivative of a tree with respect to a variable. -/
def differentiate (tree : Expr) (name : String) : Traced Expr :=
  differentiateTo (depthFor tree.size) name tree

/-- The partial derivatives with respect to all variables of a tree, in order
of their first appearance. -/
def gradient (tree : Expr) : Traced (List Expr) :=
  Traced.forEach tree.differentiate tree.variableNames

/-- The derivative of the given order. -/
def nthDerivative (tree : Expr) (name : String) : Nat → Traced Expr
  | 0 => pure tree
  | order + 1 => do
      let lower ← tree.nthDerivative name order
      lower.differentiate name

end Expr

end SymbolicAlgebra
