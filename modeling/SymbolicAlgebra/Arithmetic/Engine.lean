import SymbolicAlgebra.Arithmetic.Collection
import SymbolicAlgebra.Arithmetic.Logic

/-!
# The arithmetic engine

Operators applied to trees.  The rules are tried first; when none applies, the
operands are unfolded into the terms of a chain, which are collected when there
are enough of them, and otherwise the plain node is built.

Rules call on arithmetic for operands that are in some way smaller.  The engine
ties this knot by a depth: at depth zero it computes with numbers and builds
plain nodes from all else, and at each further depth it applies the rules over
the engine one below.  Plain nodes have the value of the operation that they
stand for, so the depth never affects what a result denotes.  The depth that
operators start from is so great that the engine of depth zero is never called.
-/

namespace SymbolicAlgebra

/-- Takes a scratch buffer.  All buffers that a pool hands out are empty. -/
def takeScratch : Traced (List Expr) := do
  Traced.step (.checkout [])
  pure []

/-- A computation on two scratch buffers, which are handed back, the last one first,
with what it left in them. -/
def withScratch {Result : Type} (compute : Terms → Traced (Result × Terms)) :
    Traced Result := do
  let up ← takeScratch
  let down ← takeScratch
  let (result, left) ← compute ⟨up, down⟩
  Traced.step (.giveBack left.down)
  Traced.step (.giveBack left.up)
  pure result

/-- The tree of a chain whose terms are filled into scratch buffers: collected, which
empties the buffers, or the plain node when there are too few terms. -/
def collectFilled (kernel : Kernel) (chain : Chain) (gather : Terms → Traced Terms)
    (node : Expr) : Traced Expr :=
  withScratch fun scratch => do
    let terms ← gather scratch
    if chain.shouldCollect terms.up.length terms.down.length then
      return (← collect kernel chain terms, .empty)
    else return (← Expr.make node, terms)

/-- The terms of two operands in the chain of their operator, behind those already
there. -/
def fillOperands (chain : Chain) (op : ArithOp) (left right : Expr) (terms : Terms) :
    Traced Terms := do
  let terms ← fill chain left terms
  if op = chain.inverse then return (← fill chain right terms.swap).swap
  else fill chain right terms

/-- Collects the terms of two operands, or builds the plain node when there are
too few of them. -/
def collectOrBuild (kernel : Kernel) (op : ArithOp) (left right : Expr) : Traced Expr :=
  match Chain.of? op with
  | none => Expr.make (.arith op left right)
  | some chain =>
      collectFilled kernel chain (fillOperands chain op left right) (.arith op left right)

/-- A binary operator by its rules, by collection or as a plain node. -/
def applyBinary (kernel : Kernel) (op : ArithOp) (left right : Expr) : Traced Expr := do
  match ← (combine kernel op left right).run with
  | some result => pure result
  | none => collectOrBuild kernel op left right

/-- Negation of a node by its form: a double negation cancels, a difference is
turned around, and a numeric factor takes the sign. -/
def negateByForm (kernel : Kernel) : Expr → Rule Expr
  | .unary .neg operand _ => pure operand
  | .arith .sub left right _ => kernel.binary .sub right left
  | .arith .mul left right _ =>
      match left.asNumber?, right.asNumber? with
      | some coefficient, _ => do
          let flipped ← negateNumber coefficient
          kernel.binary .mul flipped right
      | none, some coefficient => do
          let flipped ← negateNumber coefficient
          kernel.binary .mul flipped left
      | none, none => failure
  | _ => failure

/-- Negation of a chain of addends, collected when there are enough of them. -/
def negateTerms (kernel : Kernel) (operand : Expr) : Traced Expr :=
  collectFilled kernel .additive
    (fun terms => do return (← fillAdditive operand terms.swap).swap) (.unary .neg operand)

/-- Unary minus. -/
def applyNegation (kernel : Kernel) (operand : Expr) : Traced Expr :=
  if operand.isError then pure operand
  else
    match operand.toNumber?, operand.asArray? with
    | some number, _ => negateNumber number
    | none, some items => do Expr.make (.array (← Traced.forEach kernel.negate items))
    | none, none =>
        if operand.isTextual then Expr.make (.typeMismatch "text can not be negated")
        else do
          match ← (negateByForm kernel operand <|> negated kernel operand).run with
          | some result => pure result
          | none => negateTerms kernel operand

namespace Kernel

/-- Arithmetic that computes with numbers and only builds nodes otherwise. -/
def plain : Kernel where
  binary op left right := do
    match ← (numericRule op left right).run with
    | some result => pure result
    | none => Expr.make (.arith op left right)
  negate operand :=
    match operand.toNumber? with
    | some number => negateNumber number
    | none => Expr.make (.unary .neg operand)

/-- Arithmetic by the rules, over the given arithmetic. -/
def above (kernel : Kernel) : Kernel where
  binary := applyBinary kernel
  negate := applyNegation kernel

/-- The engine of a given depth. -/
def ofDepth : Nat → Kernel
  | 0 => plain
  | depth + 1 =>
      { binary := fun op left right => (above (ofDepth depth)).binary op left right
        negate := fun operand => (above (ofDepth depth)).negate operand }

end Kernel

/-- A depth that calls on operands of the given total size do not use up. -/
def callDepth (size : Nat) : Nat := Nat.pow 2 (3 * size + 8)

namespace Expr

/-- An arithmetic operator applied to two trees. -/
def arithmetic (op : ArithOp) (left right : Expr) : Traced Expr :=
  (Kernel.ofDepth (callDepth (left.size + right.size))).binary op left right

def add (left right : Expr) : Traced Expr := arithmetic .add left right

def sub (left right : Expr) : Traced Expr := arithmetic .sub left right

def mul (left right : Expr) : Traced Expr := arithmetic .mul left right

def div (left right : Expr) : Traced Expr := arithmetic .div left right

def pow (left right : Expr) : Traced Expr := arithmetic .pow left right

/-- Unary minus of a tree. -/
def neg (operand : Expr) : Traced Expr :=
  (Kernel.ofDepth (callDepth operand.size)).negate operand

/-- An operator applied to two trees; a unary operator applies to the first and
ignores the second. -/
def calculate (op : Operator) (left right : Expr) : Traced Expr :=
  match op with
  | .unary .neg => left.neg
  | .unary .not => left.negation
  | .arith op => arithmetic op left right
  | .relation comparison => compareBy comparison left right
  | .connective link => connect link left right

/-- The result of the rules alone, absent when none applies. -/
def combineBy (op : Operator) (left right : Expr) : Traced (Option Expr) :=
  match op with
  | .arith op =>
      (combine (Kernel.ofDepth (callDepth (left.size + right.size))) op left right).run
  | op => (Rule.ofOption (firstError? left right) <|> textRule op left right).run

/-- The tree of the collected terms of a chain. -/
def collectTerms (chain : Chain) (terms : Terms) : Traced Expr :=
  let size := (terms.up ++ terms.down).foldr (fun term total => term.size + total) 0
  collect (Kernel.ofDepth (callDepth size)) chain terms

end Expr

end SymbolicAlgebra
