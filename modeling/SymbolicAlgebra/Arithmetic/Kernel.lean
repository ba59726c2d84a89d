import SymbolicAlgebra.Arithmetic.Terms

/-!
# Structural operands

The rules of arithmetic that do not depend on the operator's algebra: errors
are handed on, numbers are computed, arrays are worked through element by
element, and texts can only be joined.

Rules that need arithmetic on smaller operands take it as a parameter, a
`Kernel`.  A rule is a computation that may find itself not applicable; the
next rule is then tried.
-/

namespace SymbolicAlgebra

/-- The arithmetic that rules fall back on. -/
structure Kernel where
  binary : ArithOp → Expr → Expr → Traced Expr
  negate : Expr → Traced Expr

/-- A computation that may not apply. -/
abbrev Rule := OptionT Traced

namespace Rule

/-- A rule that applies when the result is there. -/
def ofOption {Result : Type} (result : Option Result) : Rule Result :=
  OptionT.mk (pure result)

end Rule

/-- The leftmost error among two operands. -/
def firstError? (left right : Expr) : Option Expr :=
  if left.isError then some left else if right.isError then some right else none

theorem firstError?_eq_some {left right error : Expr}
    (found : firstError? left right = some error) :
    error.isError = true ∧ (error = left ∨ error = right) := by
  unfold firstError? at found
  split at found
  · obtain rfl := Option.some.inj found
    exact ⟨‹_›, .inl rfl⟩
  · split at found
    · obtain rfl := Option.some.inj found
      exact ⟨‹_›, .inr rfl⟩
    · contradiction

/-- An arithmetic operator on numbers. -/
def ArithOp.onNumbers : ArithOp → Number → Number → Number
  | .add => Number.add
  | .sub => Number.sub
  | .mul => Number.mul
  | .div => Number.div
  | .pow => Number.pow

/-- An arithmetic operator has no value at these numbers: division by an exact
zero and negative powers of one. -/
def ArithOp.isUndefinedAt : ArithOp → Number → Number → Bool
  | .div, _, divisor => divisor.isExactZero
  | .pow, base, exponent => base.isExactZero && exponent.isNegative
  | _, _, _ => false

/-- Two numbers are computed on the numeric tower; truth values count as zero
and one.  The trace tells results without a value from those out of range. -/
def numericRule (op : ArithOp) (left right : Expr) : Rule Expr :=
  match left.toNumber?, right.toNumber? with
  | some x, some y =>
      if op.isUndefinedAt x y then do
        Traced.step (.undefined op x y)
        Expr.ofNumber (op.onNumbers x y)
      else Traced.numeric [x, y] (op.onNumbers x y)
  | _, _ => failure

/-- Elements of two arrays combined in pairs; the arrays must be of one
length. -/
def elementwise (kernel : Kernel) (op : ArithOp) (lefts rights : List Expr) : Traced Expr :=
  if lefts.length ≠ rights.length then
    Expr.make (.outOfBounds ("array sizes " ++ toString lefts.length ++ " and " ++
      toString rights.length ++ " differ"))
  else do
    let items ← Traced.forEach (fun pair => kernel.binary op pair.1 pair.2) (lefts.zip rights)
    Expr.make (.array items)

/-- Sums, differences, products and quotients of arrays are taken element by
element, a scalar is spread over products and quotients, and powers are spread
over the base. -/
def arrayRule (kernel : Kernel) (op : ArithOp) (left right : Expr) : Rule Expr :=
  match left.asArray?, right.asArray? with
  | some lefts, some rights => if op = .pow then failure else elementwise kernel op lefts rights
  | some lefts, none =>
      match op with
      | .mul | .div | .pow => do
          let items ← Traced.forEach (fun item => kernel.binary op item right) lefts
          Expr.make (.array items)
      | .add | .sub =>
          if right.isConstant then
            Expr.make (.typeMismatch "an array can not be combined with a scalar by + or -")
          else failure
  | none, some rights =>
      match op with
      | .mul | .div => do
          let items ← Traced.forEach (fun item => kernel.binary op left item) rights
          Expr.make (.array items)
      | .add | .sub =>
          if left.isConstant then
            Expr.make (.typeMismatch "a scalar can not be combined with an array by + or -")
          else failure
      | .pow => failure
  | none, none => failure

/-- Texts are joined by `+`; any other operator between a text and a constant
is an error. -/
def textRule (op : Operator) (left right : Expr) : Rule Expr :=
  match op, left, right with
  | .arith .add, .text x _, .text y _ => Expr.make (.text (x ++ y))
  | op, left, right =>
      if (left.isTextual || right.isTextual) && left.isConstant && right.isConstant then
        Expr.make (.typeMismatch ("operator " ++ op.glyph ++ " is not defined for text"))
      else failure

end SymbolicAlgebra
