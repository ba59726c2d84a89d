import SymbolicAlgebra.Arithmetic.Identities

/-!
# Collecting terms

The terms of a chain are sorted, terms with equal keys are merged, inverse
terms are cancelled against positive ones, terms that read better on the other
side are moved there, and what is left is folded back into a tree.  In a
multiplicative chain the signs of the factors are pulled out first and return
as one sign on the factor that is read first.
-/

namespace SymbolicAlgebra

/-- The node is an application of the given operator. -/
def isApplicationOf (op : ArithOp) (tree : Expr) : Bool :=
  tree.operator? = some (.arith op)

/-- Merges two terms by an operator; a result that is still an application of
the operator is no merge. -/
def mergePair (kernel : Kernel) (op : ArithOp) (left right : Expr) : Rule Expr := do
  let merged ← combine kernel op left right
  guard !isApplicationOf op merged
  pure merged

/-- Merges a term into the run of terms with its key that ends just before it.
The terms before it are given nearest first. -/
def absorb (kernel : Kernel) (chain : Chain) (term : Expr) : List Expr → Rule (List Expr)
  | [] => failure
  | nearest :: before =>
      if sameKey chain nearest term then
        (do
          let merged ← mergePair kernel chain.op nearest term
          pure (merged :: before)) <|>
        (do
          let absorbed ← absorb kernel chain term before
          pure (nearest :: absorbed))
      else failure

/-- Merges the terms of a sorted list into the runs before them.  The terms
already done are given nearest first. -/
def mergeRuns (kernel : Kernel) (chain : Chain) :
    List Expr → List Expr → Traced (List Expr)
  | done, [] => pure done.reverse
  | done, term :: rest => do
      match ← (absorb kernel chain term done).run with
      | some absorbed => mergeRuns kernel chain absorbed rest
      | none => mergeRuns kernel chain (term :: done) rest

/-- Sorts a list of terms and merges terms with equal keys. -/
def tidy (kernel : Kernel) (chain : Chain) (terms : List Expr) : Traced (List Expr) :=
  mergeRuns kernel chain [] (sortTerms chain terms)

/-- Sorts and merges both lists. -/
def tidyBoth (kernel : Kernel) (chain : Chain) (terms : Terms) : Traced Terms := do
  let up ← tidy kernel chain terms.up
  let down ← tidy kernel chain terms.down
  pure ⟨up, down⟩

/-- Cancels an inverse term against the first positive term with its key that
takes it. -/
def cancelOne (kernel : Kernel) (chain : Chain) (term : Expr) : List Expr → Rule (List Expr)
  | [] => failure
  | candidate :: rest =>
      (do
        guard (sameKey chain candidate term)
        let merged ← mergePair kernel chain.inverse candidate term
        pure (merged :: rest)) <|>
      (do
        let cancelled ← cancelOne kernel chain term rest
        pure (candidate :: cancelled))

/-- Cancels inverse terms against positive ones, in order. -/
def cancel (kernel : Kernel) (chain : Chain) : List Expr → List Expr → Traced Terms
  | up, [] => pure ⟨up, []⟩
  | up, term :: rest => do
      match ← (cancelOne kernel chain term up).run with
      | some remaining => cancel kernel chain remaining rest
      | none => do
          let cancelled ← cancel kernel chain up rest
          pure ⟨cancelled.up, term :: cancelled.down⟩

/-- The positive form of a factor that is negated or negative. -/
def withoutSign : Expr → Rule Expr
  | .unary .neg operand _ => pure operand
  | .number value _ => if value.isNegative then negateNumber value else failure
  | _ => failure

/-- The factors without their signs, and whether an odd number of signs was
removed. -/
def extractSigns : List Expr → Traced (List Expr × Bool)
  | [] => pure ([], false)
  | factor :: factors => do
      match ← (withoutSign factor).run with
      | some positive => do
          let (rest, odd) ← extractSigns factors
          pure (positive :: rest, !odd)
      | none => do
          let (rest, odd) ← extractSigns factors
          pure (factor :: rest, odd)

/-- The inverse of a term that reads better on the other side: a negative
addend or a negative power. -/
def flipped : Chain → Expr → Rule Expr
  | .additive, .number value _ => if value.isNegative then negateNumber value else failure
  | .additive, .unary .neg operand _ => pure operand
  | .multiplicative, .arith .pow base (.number exponent _) _ =>
      if exponent.isNegative then reciprocalPower base exponent else failure
  | _, _ => failure

/-- The terms that stay, and the inverses of those that move. -/
def splitFlipped (chain : Chain) : List Expr → Traced (List Expr × List Expr)
  | [] => pure ([], [])
  | term :: terms => do
      match ← (flipped chain term).run with
      | some inverse => do
          let (stay, move) ← splitFlipped chain terms
          pure (stay, inverse :: move)
      | none => do
          let (stay, move) ← splitFlipped chain terms
          pure (term :: stay, move)

/-- Moves terms that read better on the other side. -/
def balance (chain : Chain) (terms : Terms) : Traced Terms := do
  let (up, toDown) ← splitFlipped chain terms.up
  let (down, toUp) ← splitFlipped chain terms.down
  pure ⟨up ++ toUp, down ++ toDown⟩

/-- Terms applied one after the other to a start, from the last to the first. -/
def foldBack (op : ArithOp) (start : Expr) : List Expr → Marking Expr
  | [] => pure start
  | term :: terms => do Expr.make (.arith op (← foldBack op start terms) term)

/-- A left-nested tree over the terms that reads the last one first. -/
def foldReversed? (op : ArithOp) (terms : List Expr) : Marking (Option Expr) :=
  match terms.getLast? with
  | some last => some <$> foldBack op last terms.dropLast
  | none => pure none

/-- The tree of a sum.  Without addends it starts with a negated
subtrahend. -/
def foldAdditive (terms : Terms) : Marking Expr := do
  match ← foldReversed? .add terms.up, terms.down.getLast? with
  | some sum, _ => foldBack .sub sum terms.down
  | none, some last => do
      let first ← Expr.make (.unary .neg last)
      foldBack .sub first terms.down.dropLast
  | none, none => pure Chain.additive.neutral

/-- The numerator with the sign on the factor that is read first. -/
def signedNumerator (kernel : Kernel) (negative : Bool) (factors : List Expr) :
    Traced (List Expr) :=
  if negative then
    match factors.getLast? with
    | some last => do return factors.dropLast ++ [← kernel.negate last]
    | none => pure [.int (-1)]
  else pure factors

/-- The tree of a product of quotients, with one fraction bar at most. -/
def foldMultiplicative (kernel : Kernel) (negative : Bool) (terms : Terms) : Traced Expr := do
  let numerator ← signedNumerator kernel negative terms.up
  let top := (← foldReversed? .mul numerator).getD Chain.multiplicative.neutral
  match ← foldReversed? .mul terms.down with
  | some bottom => Expr.make (.arith .div top bottom)
  | none => pure top

/-- The signs of the factors of a chain as one sign, and the terms without
them; terms of a sum keep theirs. -/
def pullSigns (chain : Chain) (terms : Terms) : Traced (Terms × Bool) :=
  match chain with
  | .additive => pure (terms, false)
  | .multiplicative => do
      let (up, upOdd) ← extractSigns terms.up
      let (down, downOdd) ← extractSigns terms.down
      pure (⟨up, down⟩, upOdd != downOdd)

/-- The terms of a chain in their final order: merged, cancelled, merged once
more because cancelling may leave several numbers on one side, balanced and
sorted. -/
def settle (kernel : Kernel) (chain : Chain) (terms : Terms) : Traced Terms := do
  let tidied ← tidyBoth kernel chain terms
  let cancelled ← cancel kernel chain tidied.up tidied.down
  let merged ← tidyBoth kernel chain cancelled
  let balanced ← balance chain merged
  pure ⟨sortTerms chain balanced.up, sortTerms chain balanced.down⟩

/-- Collects the terms of a chain into a tree. -/
def collect (kernel : Kernel) (chain : Chain) (terms : Terms) : Traced Expr := do
  Traced.step (.collecting chain terms.up.length terms.down.length)
  let (unsigned, negative) ← pullSigns chain terms
  let settled ← settle kernel chain unsigned
  if chain = .multiplicative && settled.up.any Expr.isZero then pure (.int 0)
  else
    let kept : Terms :=
      ⟨settled.up.filter (!chain.isNeutral ·), settled.down.filter (!chain.isNeutral ·)⟩
    match chain with
    | .additive => foldAdditive kept
    | .multiplicative => foldMultiplicative kernel negative kept

end SymbolicAlgebra
