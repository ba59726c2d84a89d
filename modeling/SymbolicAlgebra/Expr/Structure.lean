import SymbolicAlgebra.Expr.Basic
import SymbolicAlgebra.Decimal.Layout
import SymbolicAlgebra.Text.Quoted

/-!
# The structural form of trees

A form for diagnostics that shows every tag and every representation: each node
is its kind followed by its content in parentheses, numbers name their
representation, and texts are quoted.
-/

namespace SymbolicAlgebra

namespace Number

/-- A fraction by its two parts. -/
def ratioStructure (ratio : Rat) : String :=
  "Ratio \x7b numer: " ++ toString ratio.num ++ ", denom: " ++ toString ratio.den ++ " \x7d"

/-- A complex number by its two parts. -/
def complexStructure (re im : String) : String :=
  "Complex \x7b re: " ++ re ++ ", im: " ++ im ++ " \x7d"

/-- The structural form of a number. -/
def structureText : Number → String
  | .int value => "Int(" ++ toString value ++ ")"
  | .rational value => "Rational(" ++ ratioStructure value ++ ")"
  | .real value => "Real(" ++ Decimal.source value ++ ")"
  | .complexInt value =>
      "ComplexInt(" ++ complexStructure (toString value.re) (toString value.im) ++ ")"
  | .complexRational value =>
      "ComplexRational(" ++
        complexStructure (ratioStructure value.re) (ratioStructure value.im) ++ ")"
  | .complexReal value =>
      "ComplexReal(" ++
        complexStructure (Decimal.source value.re) (Decimal.source value.im) ++ ")"

end Number

namespace Operator

/-- The word for an operator. -/
def word : Operator → String
  | .unary .neg => "Neg"
  | .unary .not => "Not"
  | .arith .add => "Add"
  | .arith .sub => "Sub"
  | .arith .mul => "Mul"
  | .arith .div => "Div"
  | .arith .pow => "Pow"
  | .relation .equal => "Eq"
  | .relation .less => "Less"
  | .relation .greater => "Greater"
  | .relation .lessEq => "LessEq"
  | .relation .greaterEq => "GreaterEq"
  | .connective .and => "And"
  | .connective .or => "Or"

end Operator

namespace Function

/-- The word for a function. -/
def word : Function → String
  | .unary .randList => "RandList"
  | function => function.name.capitalize

end Function

namespace Construct

/-- The word for a construct. -/
def word (construct : Construct) : String := construct.name.capitalize

end Construct

namespace Expr

/-- The structural form of a leaf. -/
def leafStructure : Expr → String
  | .number value _ => "Number(" ++ value.structureText ++ ")"
  | .bool value _ => "Bool(" ++ (if value then "true" else "false") ++ ")"
  | .char value _ => "Char(" ++ Text.quotedBy '\'' (String.singleton value) ++ ")"
  | .text value _ => "Str(" ++ Text.quoted value ++ ")"
  | .var name _ => "Var(" ++ name ++ ")"
  | .error fault _ =>
      "Error(CalcError \x7b kind: " ++ fault.kind.name ++ ", message: " ++
        Text.quoted fault.message ++ " \x7d)"
  | _ => ""

/-- The structural form of a node over the forms of its children. -/
def nodeStructure (tree : Expr) (children : List String) : String :=
  let list := "[" ++ String.intercalate ", " children ++ "]"
  match tree.head with
  | .operator op => "Op(" ++ op.word ++ ", " ++ list ++ ")"
  | .function function => "Func(" ++ function.word ++ ", " ++ list ++ ")"
  | .construct construct => "Control(" ++ construct.word ++ ", " ++ list ++ ")"
  | _ => "Array(" ++ list ++ ")"

/-- The structural form of a tree. -/
def structureText : Expr → String := fold leafStructure nodeStructure

end Expr

end SymbolicAlgebra
