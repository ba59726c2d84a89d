import SymbolicAlgebra.Expr.Rendering
import SymbolicAlgebra.Expr.Variables
import SymbolicAlgebra.Text.Blank

/-!
# Checked construction

Nodes built from a tag or a name and a list of children.  The number of
children must be the arity of the tag, and the target of an assignment and the
index of a sum must be variables.  The nodes are yet to be marked.
-/

namespace SymbolicAlgebra

/-- Why a node could not be built. -/
inductive NodeError where
  | arityMismatch (node : String) (expected found : Nat)
  | notAVariable (target : Expr)
  | invalidName (name : String)
  | unknownFunction (name : String)

namespace NodeError

def message : NodeError → String
  | arityMismatch node expected found =>
      "node '" ++ node ++ "' expects " ++ toString expected ++ " children but " ++
        toString found ++ " were given"
  | notAVariable target => "'" ++ target.toText ++ "' is not a variable reference"
  | invalidName name => "'" ++ name ++ "' is not a valid variable name"
  | unknownFunction name => "unknown function '" ++ name ++ "'"

end NodeError

namespace Expr

/-- The node of an operator over a list of operands. -/
def ofOperator (op : Operator) (operands : List Expr) : Except NodeError Expr :=
  match op, operands with
  | .unary op, [operand] => .ok (.unary op operand)
  | .arith op, [left, right] => .ok (.arith op left right)
  | .relation comparison, [left, right] => .ok (.relation comparison left right)
  | .connective link, [left, right] => .ok (.connective link left right)
  | op, operands => .error (.arityMismatch op.glyph op.arity operands.length)

/-- The node of a function over a list of arguments. -/
def ofFunction (function : Function) (arguments : List Expr) : Except NodeError Expr :=
  match function, arguments with
  | .unary function, [argument] => .ok (.call function argument)
  | .binary function, [first, second] => .ok (.call₂ function first second)
  | function, arguments =>
      .error (.arityMismatch function.name function.arity arguments.length)

/-- The node of a function known by name. -/
def ofFunctionName (name : String) (arguments : List Expr) : Except NodeError Expr :=
  match Function.ofName? name with
  | some function => ofFunction function arguments
  | none => .error (.unknownFunction name)

/-- The node of a control construct over a list of children. -/
def ofConstruct (construct : Construct) (children : List Expr) : Except NodeError Expr :=
  match construct, children with
  | .conditional, [test, consequence, alternative] =>
      .ok (.conditional test consequence alternative)
  | .whileLoop, [test, body] => .ok (.whileLoop test body)
  | .forLoop, [start, test, step, body] => .ok (.forLoop start test step body)
  | .summation, [body, index, first, last] =>
      if index.asVar?.isSome then .ok (.summation body index first last)
      else .error (.notAVariable index)
  | .pause, [seconds] => .ok (.pause seconds)
  | .assignment, [target, value] =>
      if target.asVar?.isSome then .ok (.assignment target value)
      else .error (.notAVariable target)
  | construct, children =>
      .error (.arityMismatch construct.name construct.arity children.length)

/-- The same kind of node over new children. -/
def withChildren (tree : Expr) (children : List Expr) : Except NodeError Expr :=
  match tree.head with
  | .array => .ok (.array children)
  | .operator op => ofOperator op children
  | .function function => ofFunction function children
  | .construct construct => ofConstruct construct children
  | .leaf =>
      if children.isEmpty then .ok tree
      else .error (.arityMismatch tree.toText 0 children.length)

/-- A name is a letter or underscore followed by letters, digits and
underscores, all of them ASCII. -/
def isValidName (name : String) : Bool :=
  match name.toList with
  | [] => false
  | first :: rest =>
      (first.isAlpha || first = '_') && rest.all fun c => c.isAlphanum || c = '_'

/-- A variable with a valid name. -/
def ofVariableName (name : String) : Except NodeError Expr :=
  if isValidName name then .ok (.var name) else .error (.invalidName name)

/-- Variables from a list of names separated by commas.  White space around a
name is dropped, and so are empty names. -/
def symbols (names : String) : List Expr :=
  ((Text.splitOn ',' names.toList).map Text.trim).filterMap fun name =>
    if name.isEmpty then none else some (.var (String.ofList name))

end Expr

end SymbolicAlgebra
