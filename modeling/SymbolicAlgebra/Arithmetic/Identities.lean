import SymbolicAlgebra.Arithmetic.Kernel

/-!
# Algebraic identities

Neutral and absorbing elements, like terms, powers of one base and the
extraction of signs.  Each identity is a rule of its own; the rules of an
operator are tried in a fixed order.
-/

namespace SymbolicAlgebra

/-- A term as a numeric coefficient times the rest; the coefficient is one when
no factor on the left spine of a product is a number. -/
def splitCoefficient : Expr → Marking (Number × Expr)
  | term@(.arith .mul left right _) =>
      match left.asNumber?, right.asNumber? with
      | some coefficient, _ => pure (coefficient, right)
      | none, some coefficient => pure (coefficient, left)
      | none, none => do
          let (coefficient, rest) ← splitCoefficient left
          if coefficient.isOne then pure (.int 1, term)
          else return (coefficient, ← Expr.make (.arith .mul rest right))
  | term => pure (.int 1, term)

/-- A factor as a base and an exponent; the exponent is one for anything that
is not a power. -/
def baseExponent : Expr → Expr × Expr
  | .arith .pow base exponent _ => (base, exponent)
  | factor => (factor, .int 1)

/-- The leaf of the negated number. -/
def negateNumber (number : Number) : Traced Expr := Traced.numeric [number] number.neg

/-- Terms that differ only in their coefficients are added or subtracted by
their coefficients. -/
def likeTerms (kernel : Kernel) (subtract : Bool) (left right : Expr) : Rule Expr := do
  let (leftCoefficient, leftRest) ← splitCoefficient left
  let (rightCoefficient, rightRest) ← splitCoefficient right
  if leftRest.isNumber || leftRest != rightRest then failure
  else do
    let coefficient ← Traced.numeric [leftCoefficient, rightCoefficient]
      (if subtract then leftCoefficient.sub rightCoefficient
       else leftCoefficient.add rightCoefficient)
    kernel.binary .mul coefficient leftRest

/-- The positive counterpart of a term that shows a minus sign.  A number that
leads a product is a coefficient and not a sign. -/
def negated (kernel : Kernel) : Expr → Rule Expr
  | .number value _ => if value.isNegative then negateNumber value else failure
  | .unary .neg operand _ => pure operand
  | .arith .mul left right _ =>
      (do
        guard !left.isNumber
        let positive ← negated kernel left
        kernel.binary .mul positive right) <|>
      (match right with
        | .unary .neg operand _ => kernel.binary .mul left operand
        | _ => failure)
  | .arith .div left right _ => do
      guard !left.isNumber
      let positive ← negated kernel left
      kernel.binary .div positive right
  | _ => failure

/-- Puts a minus sign on the factor that a product reads first. -/
def negateLeadingFactor (kernel : Kernel) : Expr → Traced Expr
  | .arith .mul left right _ => do
      Expr.make (.arith .mul (← negateLeadingFactor kernel left) right)
  | .arith .div left right _ => do
      Expr.make (.arith .div (← negateLeadingFactor kernel left) right)
  | factor => kernel.negate factor

/-- The identities of addition. -/
def addIdentities (kernel : Kernel) (left right : Expr) : Rule Expr :=
  if left.isZero then pure right
  else if right.isZero then pure left
  else
    likeTerms kernel false left right <|>
    (do
      let positive ← negated kernel right
      kernel.binary .sub left positive) <|>
    (do
      let positive ← negated kernel left
      kernel.binary .sub right positive)

/-- The identities of subtraction. -/
def subIdentities (kernel : Kernel) (left right : Expr) : Rule Expr :=
  if right.isZero then pure left
  else if left.isZero then kernel.negate right
  else if left == right then pure (.int 0)
  else
    likeTerms kernel true left right <|>
    (do
      let positive ← negated kernel right
      kernel.binary .add left positive)

/-- A minus sign on a factor moves to the front of the product, and two signs
cancel.  Next to a number the sign moves into the number. -/
def mulSigns (kernel : Kernel) (left right : Expr) : Rule Expr :=
  match left, right with
  | .number coefficient _, .unary .neg operand _ => do
      let flipped ← negateNumber coefficient
      kernel.binary .mul flipped operand
  | .unary .neg first _, .unary .neg second _ => kernel.binary .mul first second
  | .unary .neg operand _, factor =>
      if factor.isNumber then failure
      else do
        let product ← kernel.binary .mul operand factor
        negateLeadingFactor kernel product
  | factor, .unary .neg operand _ => do
      let product ← kernel.binary .mul factor operand
      negateLeadingFactor kernel product
  | _, _ => failure

/-- Powers of one base are multiplied by adding their exponents. -/
def mulPowers (kernel : Kernel) (left right : Expr) : Rule Expr :=
  let (leftBase, leftExponent) := baseExponent left
  let (rightBase, rightExponent) := baseExponent right
  if leftBase.isNumber || leftBase != rightBase then failure
  else do
    let exponent ← kernel.binary .add leftExponent rightExponent
    kernel.binary .pow leftBase exponent

/-- The identities of multiplication. -/
def mulIdentities (kernel : Kernel) (left right : Expr) : Rule Expr :=
  if left.isZero then pure left
  else if right.isZero then pure right
  else if left.isOne then pure right
  else if right.isOne then pure left
  else if left.isMinusOne then kernel.negate right
  else if right.isMinusOne then kernel.negate left
  else mulSigns kernel left right <|> mulPowers kernel left right

/-- A sine over the cosine of the same argument is a tangent. -/
def tangentRule : Expr → Expr → Rule Expr
  | .call .sin x _, .call .cos y _ => if x == y then Expr.make (.call .tan x) else failure
  | _, _ => failure

/-- A minus sign on either part moves to the front of the quotient, and two
signs cancel. -/
def divSigns (kernel : Kernel) (left right : Expr) : Rule Expr :=
  match left, right with
  | .unary .neg first _, .unary .neg second _ => kernel.binary .div first second
  | .unary .neg operand _, divisor => do
      let quotient ← kernel.binary .div operand divisor
      negateLeadingFactor kernel quotient
  | dividend, .unary .neg operand _ => do
      let quotient ← kernel.binary .div dividend operand
      negateLeadingFactor kernel quotient
  | _, _ => failure

/-- Powers of one base are divided by subtracting their exponents; a negative
difference leaves the power in the denominator. -/
def divPowers (kernel : Kernel) (left right : Expr) : Rule Expr :=
  let (leftBase, leftExponent) := baseExponent left
  let (rightBase, rightExponent) := baseExponent right
  if leftBase.isNumber || leftBase != rightBase then failure
  else do
    let exponent ← kernel.binary .sub leftExponent rightExponent
    if exponent.isNegativeNumber then
      let positive ← kernel.negate exponent
      let power ← kernel.binary .pow leftBase positive
      kernel.binary .div (.int 1) power
    else kernel.binary .pow leftBase exponent

/-- The identities of division. -/
def divIdentities (kernel : Kernel) (left right : Expr) : Rule Expr :=
  if right.isOne then pure left
  else if right.isMinusOne then kernel.negate left
  else if left.isZero && !right.isZero then pure left
  else if left == right then pure (.int 1)
  else tangentRule left right <|> divSigns kernel left right <|> divPowers kernel left right

/-- The number is real and not negative. -/
def isNonnegativeReal (number : Number) : Bool := !number.isComplex && !number.isNegative

/-- A power of a power multiplies the exponents, and an integer power of a
negated base keeps the sign of the base when the exponent is odd. -/
def powOfNode (kernel : Kernel) (base exponent : Expr) : Rule Expr :=
  match base, exponent.asNumber? with
  | .arith .pow inner innerExponent _, some _ => do
      guard innerExponent.isNumber
      let product ← kernel.binary .mul innerExponent exponent
      kernel.binary .pow inner product
  | .unary .neg operand _, some (.int power) => do
      let magnitude ← kernel.binary .pow operand exponent
      if power % 2 = 0 then pure magnitude else kernel.negate magnitude
  | _, _ => failure

/-- The identities of powers. -/
def powIdentities (kernel : Kernel) (base exponent : Expr) : Rule Expr :=
  if exponent.isZero then pure (.int 1)
  else if exponent.isOne || base.isOne then pure base
  else if base.isZero && exponent.asNumber?.any isNonnegativeReal then pure base
  else powOfNode kernel base exponent

/-- The identities of an operator. -/
def identities (kernel : Kernel) : ArithOp → Expr → Expr → Rule Expr
  | .add => addIdentities kernel
  | .sub => subIdentities kernel
  | .mul => mulIdentities kernel
  | .div => divIdentities kernel
  | .pow => powIdentities kernel

/-- All rules for two operands: errors, numbers, arrays, texts and identities,
in this order. -/
def combine (kernel : Kernel) (op : ArithOp) (left right : Expr) : Rule Expr :=
  Rule.ofOption (firstError? left right) <|>
  numericRule op left right <|>
  arrayRule kernel op left right <|>
  textRule (.arith op) left right <|>
  identities kernel op left right

/-- The leftmost error is handed on before any other rule is tried. -/
theorem combine_of_firstError? {kernel : Kernel} {op : ArithOp} {left right error : Expr}
    (found : firstError? left right = some error) : combine kernel op left right = pure error := by
  rw [combine, found]
  rfl

end SymbolicAlgebra
