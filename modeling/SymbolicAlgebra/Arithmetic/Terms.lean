import SymbolicAlgebra.Number.Power
import SymbolicAlgebra.Trace

/-!
# Terms of a chain

The terms of a chain in two lists: addends and subtrahends, or numerator and
denominator factors.  Terms are ordered by a key: variables first, then texts,
functions, numbers and everything else, with names in descending order, because
the collected chain is read from the end of the list.  The sort is stable, so
terms with equal keys keep their order.
-/

namespace SymbolicAlgebra

/-- The two lists of terms of a chain. -/
structure Terms where
  up : List Expr
  down : List Expr

namespace Terms

/-- No terms. -/
def empty : Terms := ⟨[], []⟩

/-- The terms with the roles of the two lists exchanged. -/
def swap (terms : Terms) : Terms := ⟨terms.down, terms.up⟩

/-- Appends a positive term. -/
def push (terms : Terms) (term : Expr) : Terms := ⟨terms.up ++ [term], terms.down⟩

end Terms

/-- The sorting key of a term. -/
inductive TermKey where
  | var (name : String)
  | text (value : String)
  | function (name : String)
  | numeric
  | other
deriving DecidableEq

namespace TermKey

/-- The class of a key. -/
def rank : TermKey → Nat
  | var _ => 0
  | text _ => 1
  | function _ => 2
  | numeric => 3
  | other => 4

/-- The order of keys: by class, and by descending name within a class. -/
def compare : TermKey → TermKey → Ordering
  | var a, var b => Ord.compare b a
  | text a, text b => Ord.compare b a
  | function a, function b => Ord.compare b a
  | left, right => Ord.compare left.rank right.rank

/-- The key of a single factor.  A power of a variable counts as the variable. -/
def ofFactor : Expr → TermKey
  | .var name _ => .var name
  | .arith .pow (.var name _) _ _ => .var name
  | .text value _ => .text value
  | .call f _ _ => .function f.name
  | .call₂ f _ _ _ => .function f.name
  | .number _ _ | .bool _ _ => .numeric
  | _ => .other

/-- The factors of a product, from left to right. -/
def factors : Expr → List Expr
  | .arith .mul left right _ => factors left ++ factors right
  | term => [term]

/-- The key of a term.  In an additive chain a product has the key of its first
factor that is not numeric. -/
def of (chain : Chain) (term : Expr) : TermKey :=
  match chain, term with
  | .additive, .arith .mul _ _ _ =>
      (((factors term).map ofFactor).find? (· ≠ .numeric)).getD .numeric
  | _, _ => ofFactor term

end TermKey

/-- The terms have equal keys. -/
def sameKey (chain : Chain) (left right : Expr) : Bool :=
  (TermKey.of chain left).compare (TermKey.of chain right) == .eq

/-- Inserts a term into a sorted list, before the terms with an equal key. -/
def insertTerm (chain : Chain) (term : Expr) : List Expr → List Expr
  | [] => [term]
  | other :: rest =>
      if (TermKey.of chain term).compare (TermKey.of chain other) == .gt then
        other :: insertTerm chain term rest
      else term :: other :: rest

/-- The terms in the order of their keys, equal keys in their former order. -/
def sortTerms (chain : Chain) (terms : List Expr) : List Expr :=
  terms.foldr (insertTerm chain) []

/-! ## Filling the lists -/

/-- The base raised to the negated exponent, for a negative numeric exponent;
the plain base when that is its first power. -/
def reciprocalPower (base : Expr) (exponent : Number) : Traced Expr :=
  if exponent.isMinusOne then pure base
  else do
    let negated ← Traced.numeric [exponent] exponent.neg
    Expr.make (.arith .pow base negated)

/-- Distributes the terms of a sum over addends and subtrahends, behind those
already there. -/
def fillAdditive : Expr → Terms → Traced Terms
  | .arith .add left right _, terms => do fillAdditive right (← fillAdditive left terms)
  | .arith .sub left right _, terms => do
      let terms ← fillAdditive left terms
      return (← fillAdditive right terms.swap).swap
  | .unary .neg operand _, terms => do return (← fillAdditive operand terms.swap).swap
  | term, terms => pure (terms.push term)

/-- Distributes the factors of a product over numerator and denominator, behind
those already there.  A negative power goes to the denominator as a positive
one. -/
def fillMultiplicative : Expr → Terms → Traced Terms
  | .arith .mul left right _, terms => do fillMultiplicative right (← fillMultiplicative left terms)
  | .arith .div left right _, terms => do
      let terms ← fillMultiplicative left terms
      return (← fillMultiplicative right terms.swap).swap
  | term@(.arith .pow base (.number exponent _) _), terms =>
      if exponent.isNegative then do
        let flipped ← reciprocalPower base exponent
        pure (terms.swap.push flipped).swap
      else pure (terms.push term)
  | term, terms => pure (terms.push term)

/-- Distributes the terms of a chain over the two lists. -/
def fill : Chain → Expr → Terms → Traced Terms
  | .additive => fillAdditive
  | .multiplicative => fillMultiplicative

end SymbolicAlgebra
