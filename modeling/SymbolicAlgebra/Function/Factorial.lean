import SymbolicAlgebra.Expr.Make

/-!
# Factorials

Exact while they are in range, in double precision while they are finite,
infinite above, and undefined below zero.
-/

namespace SymbolicAlgebra

/-- The largest argument whose factorial is a finite double. -/
def maxFactorial : Nat := 170

/-- The exact factorial, while every product up to it is in range. -/
def exactFactorial? : Nat → Option Int
  | 0 => some 1
  | n + 1 => do checked ((← exactFactorial? n) * (n + 1 : Nat))

/-- The factorial as a product of doubles, from one upwards. -/
def roundedFactorial : Nat → Float
  | 0 => 1
  | n + 1 => roundedFactorial n * Float.ofNat (n + 1)

/-- The factorial of a natural number up to `maxFactorial`. -/
def factorialNat (n : Nat) : Number :=
  match exactFactorial? n with
  | some value => .int value
  | none => .real (roundedFactorial n)

/-- The factorial of an integer. -/
def factorial (n : Int) : Number :=
  if n < 0 then Number.nan
  else if n > maxFactorial then .real Double.infinity
  else factorialNat n.toNat

/-- The leaf of a factorial.  All trees share one leaf for each argument up to
`maxFactorial`. -/
def Expr.ofFactorial (n : Int) : Marking Expr :=
  if 0 ≤ n ∧ n ≤ maxFactorial then pure (.number (factorial n) (.factorial n.toNat))
  else ofNumber (factorial n)

end SymbolicAlgebra
