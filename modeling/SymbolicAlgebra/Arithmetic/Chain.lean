import SymbolicAlgebra.Expr.Basic

/-!
# Chains

Additions and subtractions form one family of operators, multiplications and
divisions another.  A formula built from the operators of one family is a chain
of terms, some of which count positively and some inversely.
-/

namespace SymbolicAlgebra

/-- A family of operators whose terms are collected together. -/
inductive Chain where
  | additive
  | multiplicative
deriving DecidableEq, Repr

namespace Chain

def word : Chain → String
  | additive => "Additive"
  | multiplicative => "Multiplicative"

/-- The family of an operator; powers form none. -/
def of? : ArithOp → Option Chain
  | .add | .sub => some additive
  | .mul | .div => some multiplicative
  | .pow => none

/-- The operator that joins positive terms. -/
def op : Chain → ArithOp
  | additive => .add
  | multiplicative => .mul

/-- The operator that joins an inverse term. -/
def inverse : Chain → ArithOp
  | additive => .sub
  | multiplicative => .div

/-- The value of a chain without terms. -/
def neutral : Chain → Expr
  | additive => .int 0
  | multiplicative => .int 1

/-- The term does not change the value of a chain. -/
def isNeutral : Chain → Expr → Bool
  | additive, term => term.isZero
  | multiplicative, term => term.isOne

/-- The numbers of positive and inverse terms for which collecting is worth
while. -/
def shouldCollect (chain : Chain) (up down : Nat) : Bool :=
  match chain with
  | additive => up + down > 2 || up == 2 || down == 2
  | multiplicative => up + down > 2

end Chain

end SymbolicAlgebra
