import SymbolicAlgebra.Expr.Basic
import SymbolicAlgebra.Number.Rendering

/-!
# Formulas as text

Trees are written in the usual mathematical form, either as plain text or as
markup for a formula typesetter.  Every node has a binding strength, and a
child is put in parentheses when it binds weaker than its parent, or equally
strong on the side where the operator does not associate.  Powers associate to
the right and all other operators to the left, so the parentheses are the
fewest that keep the shape of the tree.

A tree has a text unless the magnitude of a number leaves the bounded range
while the number is written.
-/

namespace SymbolicAlgebra

/-- The two forms in which formulas are written. -/
inductive Style where
  | plain
  | markup
deriving DecidableEq

namespace Style

/-- Text between braces. -/
def braced (text : String) : String := "\x7b" ++ text ++ "\x7d"

/-- Text between parentheses. -/
def parenthesized : Style → String → String
  | plain, text => "(" ++ text ++ ")"
  | markup, text => "\\left(" ++ text ++ "\\right)"

/-- Text in parentheses where they are needed. -/
def wrap (style : Style) (needed : Bool) (text : String) : String :=
  if needed then style.parenthesized text else text

/-- A name applied to arguments. -/
def application (style : Style) (name : String) (arguments : List String) : String :=
  name ++ style.parenthesized (String.intercalate ", " arguments)

/-- The name of an operator or construct without a symbol of its own. -/
def operatorName : Style → String → String
  | plain, name => name
  | markup, name => "\\operatorname" ++ braced name

/-- The sign between or before operands. -/
def symbol : Style → Operator → String
  | _, .unary .neg => "-"
  | plain, .unary .not => "!"
  | markup, .unary .not => "\\lnot "
  | _, .arith .add => " + "
  | _, .arith .sub => " - "
  | plain, .arith .mul => "*"
  | markup, .arith .mul => " \\cdot "
  | _, .arith .div => "/"
  | _, .arith .pow => "^"
  | _, .relation .equal => " = "
  | _, .relation .less => " < "
  | _, .relation .greater => " > "
  | plain, .relation .lessEq => " <= "
  | markup, .relation .lessEq => " \\le "
  | plain, .relation .greaterEq => " >= "
  | markup, .relation .greaterEq => " \\ge "
  | plain, .connective .and => " & "
  | markup, .connective .and => " \\land "
  | plain, .connective .or => " | "
  | markup, .connective .or => " \\lor "

/-- The name that a function is written with. -/
def functionName : Style → Function → String
  | plain, function => function.name
  | markup, .unary .sin => "\\sin"
  | markup, .unary .cos => "\\cos"
  | markup, .unary .tan => "\\tan"
  | markup, .unary .atan => "\\arctan"
  | markup, .unary .sinh => "\\sinh"
  | markup, .unary .cosh => "\\cosh"
  | markup, .unary .tanh => "\\tanh"
  | markup, .unary .exp => "\\exp"
  | markup, .unary .ln => "\\ln"
  | markup, .unary .det => "\\det"
  | markup, .binary .max => "\\max"
  | markup, .binary .min => "\\min"
  | markup, function => operatorName markup function.name

/-- A number; in markup a fraction is set with its sign in front. -/
def numberText : Style → Number → String
  | markup, .rational value =>
      (if value.num < 0 then "-" else "") ++ "\\frac" ++
        braced (toString value.num.natAbs) ++ braced (toString value.den)
  | _, number => number.text

/-- The integer that is negated in the bounded range when the number is written;
in markup the numerator of a negative fraction is one too. -/
def negated? : Style → Number → Option Int
  | markup, .rational value => if value.num < 0 then some value.num else none
  | _, number => number.negatedInText?

/-- What is negated to write the number stays in range. -/
def writes (style : Style) (number : Number) : Bool :=
  (style.negated? number).all fun value => InRange (-value)

/-- The text of a number, if it can be written. -/
def written? (style : Style) (number : Number) : Option String :=
  if style.writes number then some (style.numberText number) else none

end Style

namespace Operator

/-- How strongly an operator binds its operands. -/
def strength : Operator → Nat
  | .unary .not => 7
  | .arith .pow => 6
  | .arith .mul | .arith .div => 5
  | .arith .add | .arith .sub | .unary .neg => 4
  | .relation _ => 3
  | .connective _ => 2

end Operator

namespace Expr

/-- The strength of a node that holds itself together. -/
def solidStrength : Nat := 8

/-- How strongly a node binds.  Negative and complex numbers bind like a sum,
fractions like a quotient, and assignments weakest of all. -/
def strength : Expr → Nat
  | .number value _ =>
      if value.isNegative || value.isComplex then 4
      else
        match value with
        | .rational _ => 5
        | _ => solidStrength
  | .assignment _ _ _ => 1
  | tree =>
      match tree.operator? with
      | some op => op.strength
      | none => solidStrength

/-- The first operand of an operator needs parentheses. -/
def wrapsLeft (op : Operator) (operand : Expr) : Bool :=
  if op = .arith .pow then operand.strength ≤ op.strength else operand.strength < op.strength

/-- The second operand of an operator needs parentheses. -/
def wrapsRight (op : Operator) (operand : Expr) : Bool :=
  if op = .arith .pow then operand.strength < op.strength else operand.strength ≤ op.strength

/-- The operand of a unary operator needs parentheses. -/
def wrapsOperand (op : UnaryOp) (operand : Expr) : Bool :=
  operand.strength < max (Operator.unary op).strength 5

/-- Two rendered operands around the sign of their operator. -/
def joinOperands (style : Style) (op : Operator) (left right : Expr)
    (leftText rightText : String) : String :=
  style.wrap (wrapsLeft op left) leftText ++ style.symbol op ++
    style.wrap (wrapsRight op right) rightText

/-- Two rendered operands of an arithmetic operator.  In markup, quotients are
set as fractions and exponents are raised. -/
def joinArith (style : Style) (op : ArithOp) (left right : Expr)
    (leftText rightText : String) : String :=
  match style, op with
  | .markup, .div => "\\frac" ++ Style.braced leftText ++ Style.braced rightText
  | .markup, .pow =>
      style.wrap (wrapsLeft (.arith .pow) left) leftText ++ "^" ++ Style.braced rightText
  | _, _ => joinOperands style (.arith op) left right leftText rightText

/-- A rendered argument of a function.  In markup some functions are set as
brackets, bars or marks. -/
def applyFunction (style : Style) (function : UnaryFunction) (argument : Expr)
    (argumentText : String) : String :=
  match style, function with
  | .markup, .sqrt => "\\sqrt" ++ Style.braced argumentText
  | .markup, .abs => "\\left|" ++ argumentText ++ "\\right|"
  | .markup, .norm => "\\left\\|" ++ argumentText ++ "\\right\\|"
  | .markup, .conj => "\\overline" ++ Style.braced argumentText
  | .markup, .fact => style.wrap (argument.strength < solidStrength) argumentText ++ "!"
  | _, _ => style.application (style.functionName (.unary function)) [argumentText]

/-- Two rendered arguments of a function. -/
def applyFunction₂ (style : Style) (function : BinaryFunction)
    (firstText secondText : String) : String :=
  match style, function with
  | .markup, .diff =>
      "\\frac" ++ Style.braced "\\partial" ++ Style.braced ("\\partial " ++ secondText) ++
        style.parenthesized firstText
  | _, _ => style.application (style.functionName (.binary function)) [firstText, secondText]

/-- A control construct with its rendered children. -/
def applyConstruct (style : Style) (construct : Construct) (children : List String) : String :=
  style.application (style.operatorName construct.name) children

mutual

/-- The text of a tree. -/
def render (style : Style) : Expr → String
  | .number value _ => style.numberText value
  | .bool value _ => if value then "true" else "false"
  | .char value _ => "'" ++ String.singleton value ++ "'"
  | .text value _ =>
      match style with
      | .plain => "\"" ++ value ++ "\""
      | .markup => "\\text" ++ Style.braced value
  | .var name _ => name
  | .error fault _ =>
      match style with
      | .plain => fault.text
      | .markup => "\\text" ++ Style.braced ("Exception: " ++ fault.message)
  | .array items _ =>
      let inner := String.intercalate ", " (renderAll style items)
      match style with
      | .plain => Style.braced inner
      | .markup => "\\left\\\x7b" ++ inner ++ "\\right\\\x7d"
  | .unary op operand _ =>
      style.symbol (.unary op) ++ style.wrap (wrapsOperand op operand) (render style operand)
  | .arith op left right _ =>
      joinArith style op left right (render style left) (render style right)
  | .relation comparison left right _ =>
      joinOperands style (.relation comparison) left right (render style left)
        (render style right)
  | .connective link left right _ =>
      joinOperands style (.connective link) left right (render style left) (render style right)
  | .call function argument _ => applyFunction style function argument (render style argument)
  | .call₂ function first second _ =>
      applyFunction₂ style function (render style first) (render style second)
  | .conditional test consequence alternative _ =>
      applyConstruct style .conditional
        [render style test, render style consequence, render style alternative]
  | .whileLoop test body _ =>
      applyConstruct style .whileLoop [render style test, render style body]
  | .forLoop start test step body _ =>
      applyConstruct style .forLoop
        [render style start, render style test, render style step, render style body]
  | .summation body index first last _ =>
      applyConstruct style .summation
        [render style body, render style index, render style first, render style last]
  | .pause seconds _ => applyConstruct style .pause [render style seconds]
  | .assignment target value _ => render style target ++ " := " ++ render style value

/-- The texts of a list of trees. -/
def renderAll (style : Style) : List Expr → List String
  | [] => []
  | tree :: trees => render style tree :: renderAll style trees

end

/-- All numbers of the tree can be written. -/
def isWritable (style : Style) : Expr → Bool :=
  fold (fun leaf => leaf.asNumber?.all style.writes) fun _ parts => parts.all id

/-- The text of a tree, if its numbers can be written. -/
def written? (style : Style) (tree : Expr) : Option String :=
  if tree.isWritable style then some (tree.render style) else none

/-- The plain text of a tree. -/
def toText (tree : Expr) : String := tree.render .plain

/-- The markup of a tree. -/
def toMarkup (tree : Expr) : String := tree.render .markup

end Expr

end SymbolicAlgebra
