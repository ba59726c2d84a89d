import SymbolicAlgebra.Expr.Basic

/-!
# Making nodes

A node that is made is given a mark of its own.  The leaves of small integers
are an exception: all trees share one leaf for each of them, so their marks
follow from their values.
-/

namespace SymbolicAlgebra

namespace Expr

/-- The least and the greatest of the integers whose leaves are shared by all
trees. -/
def sharedIntegers : Int × Int := (-128, 1024)

/-- The leaf of an integer that all trees share. -/
def sharedInteger? (value : Int) : Option Expr :=
  if sharedIntegers.1 ≤ value ∧ value ≤ sharedIntegers.2 then some (.int value) else none

/-- The mark that a node was given. -/
def givenMark : Expr → Mark
  | .number _ mark | .bool _ mark | .char _ mark | .text _ mark | .var _ mark | .error _ mark
  | .array _ mark | .unary _ _ mark | .arith _ _ _ mark | .relation _ _ _ mark
  | .connective _ _ _ mark | .call _ _ mark | .call₂ _ _ _ mark | .conditional _ _ _ mark
  | .whileLoop _ _ mark | .forLoop _ _ _ _ mark | .summation _ _ _ _ mark | .pause _ mark
  | .assignment _ _ mark => mark

/-- The mark of a node. -/
def mark (tree : Expr) : Mark :=
  match tree.asInt?.filter fun value => (sharedInteger? value).isSome with
  | some value => .integer value
  | none => tree.givenMark

/-- The node with another mark. -/
def withMark (mark : Mark) : Expr → Expr
  | .number value _ => .number value mark
  | .bool value _ => .bool value mark
  | .char value _ => .char value mark
  | .text value _ => .text value mark
  | .var name _ => .var name mark
  | .error fault _ => .error fault mark
  | .array items _ => .array items mark
  | .unary op operand _ => .unary op operand mark
  | .arith op left right _ => .arith op left right mark
  | .relation comparison left right _ => .relation comparison left right mark
  | .connective link left right _ => .connective link left right mark
  | .call function argument _ => .call function argument mark
  | .call₂ function first second _ => .call₂ function first second mark
  | .conditional test consequence alternative _ =>
      .conditional test consequence alternative mark
  | .whileLoop test body _ => .whileLoop test body mark
  | .forLoop start test step body _ => .forLoop start test step body mark
  | .summation body index first last _ => .summation body index first last mark
  | .pause seconds _ => .pause seconds mark
  | .assignment target value _ => .assignment target value mark

/-- The two are one node, held in two places. -/
def isSameNode (left right : Expr) : Bool := left.mark.agrees right.mark

/-- A node with a mark of its own. -/
def make (node : Expr) : Marking Expr := do return node.withMark (← Marking.next)

@[simp] theorem run_make (node : Expr) (start : Nat) :
    (make node).run start = (node.withMark (.made start), start + 1) := rfl

/-- The leaf of a number. -/
def ofNumber (value : Number) : Marking Expr := make (.number value)

/-- The derivative of a tree by a variable, left unresolved. -/
def unresolvedDerivative (tree : Expr) (name : String) : Marking Expr := do
  make (.call₂ .diff tree (← make (.var name)))

/-- The solution of a tree for a variable, left unresolved. -/
def unresolvedSolution (tree : Expr) (name : String) : Marking Expr := do
  make (.call₂ .solve tree (← make (.var name)))

end Expr

end SymbolicAlgebra
