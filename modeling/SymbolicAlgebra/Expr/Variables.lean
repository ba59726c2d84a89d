import SymbolicAlgebra.Expr.Make

/-!
# Variables of a tree

The variables that a tree mentions, and the replacement of a variable by a
tree.  Replacement treats all positions alike, also those that name the index
of a sum or the target of an assignment.
-/

namespace SymbolicAlgebra

namespace Expr

/-- The same kind of node over other children, yet to be marked.  A list of the
wrong length leaves the node as it is. -/
def replaceChildren (tree : Expr) (children : List Expr) : Expr :=
  match tree, children with
  | .array _ _, items => .array items
  | .unary op _ _, [operand] => .unary op operand
  | .arith op _ _ _, [left, right] => .arith op left right
  | .relation comparison _ _ _, [left, right] => .relation comparison left right
  | .connective link _ _ _, [left, right] => .connective link left right
  | .call function _ _, [argument] => .call function argument
  | .call₂ function _ _ _, [first, second] => .call₂ function first second
  | .conditional _ _ _ _, [test, consequence, alternative] =>
      .conditional test consequence alternative
  | .whileLoop _ _ _, [test, body] => .whileLoop test body
  | .forLoop _ _ _ _ _, [start, test, step, body] => .forLoop start test step body
  | .summation _ _ _ _ _, [body, index, first, last] => .summation body index first last
  | .pause _ _, [seconds] => .pause seconds
  | .assignment _ _ _, [target, value] => .assignment target value
  | tree, _ => tree

/-- Every occurrence of a variable, from left to right. -/
def occurrences : Expr → List String :=
  fold (fun leaf => leaf.asVar?.toList) fun _ names => names.flatten

@[simp] theorem occurrences_number (number : Number) (mark : Mark) :
    (Expr.number number mark).occurrences = [] :=
  rfl

@[simp] theorem occurrences_var (name : String) (mark : Mark) :
    (Expr.var name mark).occurrences = [name] :=
  rfl

@[simp] theorem occurrences_unary (op : UnaryOp) (operand : Expr) (mark : Mark) :
    (Expr.unary op operand mark).occurrences = operand.occurrences := by
  simp [occurrences, fold_unary]

@[simp] theorem occurrences_arith (op : ArithOp) (left right : Expr) (mark : Mark) :
    (Expr.arith op left right mark).occurrences = left.occurrences ++ right.occurrences := by
  simp [occurrences, fold_arith]

@[simp] theorem occurrences_call (function : UnaryFunction) (argument : Expr) (mark : Mark) :
    (Expr.call function argument mark).occurrences = argument.occurrences := by
  simp [occurrences, fold_call]

/-- The distinct names of a list in order of first appearance. -/
def distinct : List String → List String
  | [] => []
  | name :: names => name :: (distinct names).filter (· ≠ name)

/-- The distinct variables of a tree in order of first appearance. -/
def variableNames (tree : Expr) : List String := distinct tree.occurrences

/-- The tree mentions the variable. -/
def containsVariable (tree : Expr) (name : String) : Bool :=
  fold (fun leaf => leaf.asVar? == some name) (fun _ found => found.any id) tree

@[simp] theorem containsVariable_unary (op : UnaryOp) (operand : Expr) (mark : Mark)
    (name : String) :
    (Expr.unary op operand mark).containsVariable name = operand.containsVariable name := by
  simp [containsVariable, fold_unary]

@[simp] theorem containsVariable_arith (op : ArithOp) (left right : Expr) (mark : Mark)
    (name : String) : (Expr.arith op left right mark).containsVariable name =
      (left.containsVariable name || right.containsVariable name) := by
  simp [containsVariable, fold_arith]

/-- The tree with every reference to a variable replaced.  The replacement is one
node in all its places, and only the nodes around it are made anew. -/
def substitute (tree : Expr) (name : String) (replacement : Expr) : Marking Expr :=
  fold (fun leaf => pure (if leaf.asVar? = some name then replacement else leaf))
    (fun node parts =>
      if node.containsVariable name then do make (node.replaceChildren (← Marking.all parts))
      else pure node)
    tree

end Expr

end SymbolicAlgebra
