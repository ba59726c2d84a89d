import SymbolicAlgebra.Arithmetic.Engine
import SymbolicAlgebra.Function.Factorial
import SymbolicAlgebra.Function.Permutation

/-!
# The catalogue of functions

Functions applied to evaluated arguments.  Numeric arguments are computed,
exactly where the result is exact; arrays are worked through element by
element; a few special forms cancel; and symbolic arguments keep the node.
Random numbers are not drawn here, since that takes permission and a source.
-/

namespace SymbolicAlgebra

/-- The largest matrix whose determinant is expanded. -/
def maxDeterminantSize : Nat := 8

/-- The value of a function at zero, where it is exact. -/
def UnaryFunction.atZero? : UnaryFunction → Option Int
  | .sin | .tan | .atan | .sinh | .tanh | .sqrt | .abs | .sign | .norm | .conj => some 0
  | .cos | .cosh | .exp | .fact => some 1
  | .ln | .det | .randList => none

/-- A function of doubles for real numbers, and of complex doubles otherwise. -/
def realOrComplex (real : Float → Float) (complex : Cartesian Float → Cartesian Float)
    (number : Number) : Number :=
  match number.toFloat? with
  | some value => .real (real value)
  | none => .ofComplexFloat (complex number.toComplexFloat)

/-- The factorial of a number.  Integral doubles too large to be read as
integers have an infinite factorial. -/
def factorialOf (number : Number) : Number :=
  match number.integerValue?, number.toFloat? with
  | some value, _ => factorial value
  | none, some value =>
      if value > Float.ofNat maxFactorial && (value.isInf || Double.isIntegral value) then
        .real Double.infinity
      else Number.nan
  | none, none => Number.nan

/-- The value of a function of one argument at a number; random numbers have
none. -/
def UnaryFunction.atNumber? (function : UnaryFunction) (number : Number) : Option Number :=
  match (if number.isZero then function.atZero? else none) with
  | some value => some (.int value)
  | none =>
      match function with
      | .sin => some (realOrComplex Float.sin Cartesian.sin number)
      | .cos => some (realOrComplex Float.cos Cartesian.cos number)
      | .tan => some (realOrComplex Float.tan Cartesian.tan number)
      | .atan => some (realOrComplex Float.atan Cartesian.atan number)
      | .sinh => some (realOrComplex Float.sinh Cartesian.sinh number)
      | .cosh => some (realOrComplex Float.cosh Cartesian.cosh number)
      | .tanh => some (realOrComplex Float.tanh Cartesian.tanh number)
      | .exp => some (realOrComplex Float.exp Cartesian.exp number)
      | .ln => some number.ln
      | .sqrt => some number.sqrt
      | .abs | .norm => some number.abs
      | .sign => some number.signum
      | .conj => some number.conj
      | .fact => some (factorialOf number)
      | .det => some number
      | .randList => none

/-- The leaf of a function of one argument at a number. -/
def UnaryFunction.onNumber (function : UnaryFunction) (number : Number) : Marking Expr :=
  match function, number.integerValue?, function.atNumber? number with
  | .fact, some argument, _ => Expr.ofFactorial argument
  | _, _, some value => Expr.ofNumber value
  | _, _, none => Expr.make (.typeMismatch (function.name ++ " expects an array"))

/-- A function of a symbolic argument.  Some functions cancel against it, and all
others keep the node. -/
def UnaryFunction.onSymbolic : UnaryFunction → Expr → Marking Expr
  | .exp, .call .ln inner _ => pure inner
  | .ln, .call .exp inner _ => pure inner
  | .sqrt, .arith .pow base (.number (.int 2) _) _ => Expr.make (.call .abs base)
  | .abs, .unary .neg inner _ => Expr.make (.call .abs inner)
  | .abs, argument@(.call .abs _ _) => pure argument
  | function, argument => Expr.make (.call function argument)

mutual

/-- A function of one argument, element by element on arrays. -/
def mapFunction (function : UnaryFunction) : Expr → Marking Expr
  | .array items _ => do Expr.make (.array (← mapFunctionAll function items))
  | argument =>
      match argument.toNumber? with
      | some number => function.onNumber number
      | none =>
          if argument.isConstant then
            Expr.make (.typeMismatch (function.name ++ " expects a number"))
          else function.onSymbolic argument

/-- A function of one argument on each tree of a list. -/
def mapFunctionAll (function : UnaryFunction) : List Expr → Marking (List Expr)
  | [] => pure []
  | item :: items => do
      let result ← mapFunction function item
      let results ← mapFunctionAll function items
      pure (result :: results)

end

/-- The square of the magnitude of an element. -/
def squaredMagnitude (item : Expr) : Traced Expr :=
  match item.toNumber? with
  | some number => do
      let magnitude ← Expr.ofNumber number.abs
      magnitude.mul magnitude
  | none => item.pow (.int 2)

/-- The sum of the squared magnitudes of some elements, added to a start. -/
def addSquares : Expr → List Expr → Traced Expr
  | total, [] => pure total
  | total, item :: items => do
      let square ← squaredMagnitude item
      addSquares (← total.add square) items

/-- The square root of a value, unless the value is an error. -/
def rootOf (value : Expr) : Marking Expr :=
  if value.isError then pure value else mapFunction .sqrt value

/-- The Euclidean norm of an array, the magnitude of anything else. -/
def euclideanNorm (argument : Expr) : Traced Expr :=
  match argument.asArray? with
  | some items => do rootOf (← addSquares (.int 0) items)
  | none => mapFunction .norm argument

/-- The product of a start and one entry of each row. -/
def multiplyEntries : Expr → List (List Expr × Nat) → Traced Expr
  | product, [] => pure product
  | product, (row, column) :: rest => do
      multiplyEntries (← product.mul (row.getD column (.int 0))) rest

/-- The signed products of the permutations, added to a start. -/
def addProducts (rows : List (List Expr)) : Expr → List Permutation → Traced Expr
  | total, [] => pure total
  | total, permutation :: rest => do
      let product ← multiplyEntries (.int permutation.sign) (rows.zip permutation.indices)
      addProducts rows (← total.add product) rest

/-- The rows of a square matrix. -/
def squareRows? (size : Nat) : List Expr → Option (List (List Expr))
  | [] => some []
  | .array cells _ :: rows =>
      if cells.length = size then (squareRows? size rows).map (cells :: ·) else none
  | _ => none

/-- The determinant of a square array of arrays, as the sum over all
permutations; the argument itself when it is a number. -/
def determinant (argument : Expr) : Traced Expr :=
  match argument.asArray? with
  | none => mapFunction .det argument
  | some rows =>
      let size := rows.length
      if size > maxDeterminantSize then
        Expr.make (.outOfBounds ("determinant of a " ++ toString size ++ "x" ++
          toString size ++ " matrix is too large to expand"))
      else
        match squareRows? size rows with
        | some matrix => addProducts matrix (.int 0) (Permutation.all size)
        | none => Expr.make (.outOfBounds "determinant needs a square matrix")

/-- The greater or the lesser of two values; symbolic operands keep the node. -/
def extremum (function : BinaryFunction) (relation : Relation) (first second : Expr) :
    Marking Expr := do
  let decided ← Expr.compareBy relation first second
  match decided.asBool? with
  | some true => pure first
  | some false =>
      if first.isConstant && second.isConstant then pure second
      else Expr.make (.call₂ function first second)
  | none =>
      if decided.isError then pure decided else Expr.make (.call₂ function first second)

/-- A function of one argument. -/
def UnaryFunction.apply (function : UnaryFunction) (argument : Expr) : Traced Expr :=
  if argument.isError then pure argument
  else
    match function with
    | .det => determinant argument
    | .norm => euclideanNorm argument
    | .randList => do
        Traced.step .randomRefused
        Expr.make (.call .randList argument)
    | function => mapFunction function argument

/-- A function of two arguments. -/
def BinaryFunction.apply (function : BinaryFunction) (first second : Expr) : Marking Expr :=
  match firstError? first second with
  | some argument => pure argument
  | none =>
      match function with
      | .max => extremum .max .greater first second
      | .min => extremum .min .less first second
      | .diff | .solve => Expr.make (.call₂ function first second)

mutual

/-- A function of two arguments given only one, which is always an error; on
arrays element by element. -/
def misapply (function : BinaryFunction) : Expr → Marking Expr
  | .array items _ => do Expr.make (.array (← misapplyAll function items))
  | argument =>
      let missing :=
        if argument.toNumber?.isSome then "an array"
        else if argument.isConstant then "a number"
        else "2 arguments"
      Expr.make (.typeMismatch (function.name ++ " expects " ++ missing))

/-- A function of two arguments given only one, for each tree of a list. -/
def misapplyAll (function : BinaryFunction) : List Expr → Marking (List Expr)
  | [] => pure []
  | item :: items => do
      let result ← misapply function item
      let results ← misapplyAll function items
      pure (result :: results)

end

/-- A function applied to a list of arguments.  The leftmost error among them is
the result, and a wrong number of them is an error of its own. -/
def Function.apply (function : Function) (arguments : List Expr) : Traced Expr :=
  match arguments.find? Expr.isError, function, arguments with
  | some argument, _, _ => pure argument
  | none, .unary function, [argument] => function.apply argument
  | none, .binary function, [first, second] => function.apply first second
  | none, .binary function, [argument] => misapply function argument
  | none, function, _ =>
      Expr.make (.typeMismatch (function.name ++ " expects " ++ toString function.arity ++
        " arguments"))

end SymbolicAlgebra
