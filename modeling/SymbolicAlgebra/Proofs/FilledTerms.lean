import Mathlib.Algebra.Field.Basic
import Mathlib.Algebra.BigOperators.Group.List.Basic
import Mathlib.Algebra.BigOperators.GroupWithZero.Action
import Mathlib.Tactic.Ring
import SymbolicAlgebra.Proofs.Filling

/-!
# Values of filled term lists

The terms of a chain are read in a field.  What is no node of the chain is a term of its
own, and any interpretation may give it a value.  Two lists of addends and subtrahends
stand for a difference of sums, and two lists of factors for a quotient of products.

Filling appends terms to both lists, and the appended terms stand for the tree.  Each
exchange of the lists negates the difference and inverts the quotient, so the exchanges on
the way to a term cancel against the signs and fraction bars above it.
-/

namespace SymbolicAlgebra

variable {K : Type*} [Field K]

namespace Terms

/-- All terms of both lists. -/
def all (terms : Terms) : List Expr := terms.up ++ terms.down

/-- The sum of the addends without the subtrahends. -/
def balance (value : Expr → K) (terms : Terms) : K :=
  (terms.up.map value).sum - (terms.down.map value).sum

/-- The product of the numerator over that of the denominator. -/
def quotient (value : Expr → K) (terms : Terms) : K :=
  (terms.up.map value).prod / (terms.down.map value).prod

end Terms

namespace Expr

variable (interpretation : Expr → K)

/-- The value of a chain of sums, differences and signs. -/
def additiveValue : Expr → K
  | .arith .add left right _ => left.additiveValue + right.additiveValue
  | .arith .sub left right _ => left.additiveValue - right.additiveValue
  | .unary .neg operand _ => -operand.additiveValue
  | term => interpretation term

/-- The value of a chain of products, quotients and whole powers. -/
def multiplicativeValue : Expr → K
  | .arith .mul left right _ => left.multiplicativeValue * right.multiplicativeValue
  | .arith .div left right _ => left.multiplicativeValue / right.multiplicativeValue
  | .arith .pow base (.number (.int exponent) _) _ => base.multiplicativeValue ^ exponent
  | term => interpretation term

/-- No divisor and no base of a negative power is zero, and negative exponents are integers
with a magnitude in range. -/
def IsDivisible : Expr → Prop
  | .arith .mul left right _ => left.IsDivisible ∧ right.IsDivisible
  | .arith .div left right _ =>
      left.IsDivisible ∧ right.IsDivisible ∧ right.multiplicativeValue interpretation ≠ 0
  | .arith .pow base (.number exponent _) _ => exponent.isNegative = true →
      base.multiplicativeValue interpretation ≠ 0 ∧
        ∃ whole, exponent = .int whole ∧ minInt < whole
  | _ => True

end Expr

/-! ## Lists put together -/

namespace Terms

variable {terms added : Terms} {term : Expr} {value : Expr → K}

theorem mem_all_append :
    term ∈ (terms.append added).all ↔ term ∈ terms.all ∨ term ∈ added.all := by
  simp only [all, append, List.mem_append]
  tauto

theorem mem_all_swap : term ∈ terms.swap.all ↔ term ∈ terms.all := by
  simp only [all, swap, List.mem_append, or_comm]

theorem balance_append :
    (terms.append added).balance value = terms.balance value + added.balance value := by
  simp only [balance, append, List.map_append, List.sum_append]
  ring

theorem balance_swap : terms.swap.balance value = -terms.balance value := by
  simp only [balance, swap, neg_sub]

theorem quotient_append :
    (terms.append added).quotient value = terms.quotient value * added.quotient value := by
  simp only [quotient, append, List.map_append, List.prod_append, mul_div_mul_comm]

theorem quotient_swap : terms.swap.quotient value = (terms.quotient value)⁻¹ := by
  simp only [quotient, swap, inv_div]

end Terms

open Terms

variable {interpretation : Expr → K} {allowed : Step → Prop}

/-! ## Sums -/

/-- The terms make up the value, and none of them is to be taken apart further. -/
structure SumsTo (interpretation : Expr → K) (value : K) (added : Terms) : Prop where
  balance : added.balance (·.additiveValue interpretation) = value
  whole : ∀ term ∈ added.all, term.isAdditiveNode = false

section Sums

variable {value other : K} {added more : Terms} {tree : Expr}

theorem SumsTo.append (sums : SumsTo interpretation value added)
    (sums' : SumsTo interpretation other more) :
    SumsTo interpretation (value + other) (added.append more) where
  balance := by rw [balance_append, sums.balance, sums'.balance]
  whole term member := (mem_all_append.mp member).elim (sums.whole term) (sums'.whole term)

theorem SumsTo.swap (sums : SumsTo interpretation value added) :
    SumsTo interpretation (-value) added.swap where
  balance := by rw [balance_swap, sums.balance]
  whole term member := sums.whole term (mem_all_swap.mp member)

theorem sumsTo_singleton (whole : tree.isAdditiveNode = false) :
    SumsTo interpretation (tree.additiveValue interpretation) ⟨[tree], []⟩ where
  balance := by simp [Terms.balance]
  whole := by simpa [all] using whole

theorem fillsSum_sumsTo :
    FillsSum fun tree => SumsTo interpretation (tree.additiveValue interpretation) where
  single whole := sumsTo_singleton whole
  add _ left right := left.append right
  sub _ left right := by
    rw [Expr.additiveValue, sub_eq_add_neg]
    exact left.append right.swap
  neg _ operand := operand.swap

end Sums

/-! ## Products -/

/-- The terms make up the value, and their quotient is defined. -/
structure MultipliesTo (interpretation : Expr → K) (value : K) (added : Terms) : Prop where
  quotient : added.quotient (·.multiplicativeValue interpretation) = value
  divisible : (added.down.map (·.multiplicativeValue interpretation)).prod ≠ 0

section Products

variable {value other : K} {added more : Terms} {tree base : Expr} {exponent : ℤ}

theorem MultipliesTo.append (multiplies : MultipliesTo interpretation value added)
    (multiplies' : MultipliesTo interpretation other more) :
    MultipliesTo interpretation (value * other) (added.append more) where
  quotient := by rw [quotient_append, multiplies.quotient, multiplies'.quotient]
  divisible := by
    rw [Terms.append, List.map_append, List.prod_append]
    exact mul_ne_zero multiplies.divisible multiplies'.divisible

/-- A quotient that is not zero has no zero in its numerator. -/
theorem MultipliesTo.swap (multiplies : MultipliesTo interpretation value added)
    (nonzero : value ≠ 0) : MultipliesTo interpretation value⁻¹ added.swap where
  quotient := by rw [quotient_swap, multiplies.quotient]
  divisible numerator := by
    rw [← multiplies.quotient, Terms.quotient] at nonzero
    exact nonzero (div_eq_zero_iff.mpr (.inl numerator))

theorem multipliesTo_singleton (tree : Expr) :
    MultipliesTo interpretation (tree.multiplicativeValue interpretation) ⟨[tree], []⟩ where
  quotient := by simp [Terms.quotient]
  divisible := by simp

theorem multipliesTo_inverse (inverts : tree.multiplicativeValue interpretation = value⁻¹)
    (nonzero : value ≠ 0) : MultipliesTo interpretation value ⟨[], [tree]⟩ where
  quotient := by simp [Terms.quotient, inverts]
  divisible := by simpa [inverts] using nonzero

/-- The power that is moved to the other list is the inverse of the one that stood there. -/
theorem reciprocalPower_inverse (negative : exponent < 0) (bounded : minInt < exponent) :
    (reciprocalPower base (.int exponent)).Ensures allowed fun flipped =>
      flipped.multiplicativeValue interpretation =
        (base.multiplicativeValue interpretation ^ exponent)⁻¹ := by
  unfold reciprocalPower
  split
  · rename_i minusOne
    obtain rfl : exponent = -1 := by simpa [Number.isMinusOne] using minusOne
    exact .pure (by rw [zpow_neg_one, inv_inv])
  · have inRange : InRange (-exponent) := by
      unfold InRange minInt maxInt at *
      omega
    have negated : (Number.int exponent).neg = .int (-exponent) := by
      rw [Number.neg, checked, if_pos inRange]
    have leaf : (Traced.numeric [.int exponent] (.int (-exponent))).Ensures allowed fun tree =>
        ∃ mark, tree = .number (.int (-exponent)) mark := .numeric fun _ mark => ⟨mark, rfl⟩
    rw [negated]
    refine .bind leaf ?_
    rintro _ ⟨inner, rfl⟩
    refine .make fun outer => ?_
    rw [Expr.withMark, Expr.multiplicativeValue, zpow_neg]

theorem fillsProduct_multipliesTo : FillsProduct allowed fun tree added =>
    tree.IsDivisible interpretation →
      MultipliesTo interpretation (tree.multiplicativeValue interpretation) added where
  single term _ := multipliesTo_singleton term
  mul _ left right divisible := (left divisible.1).append (right divisible.2)
  div _ left right divisible := by
    obtain ⟨leftDivisible, rightDivisible, nonzero⟩ := divisible
    rw [Expr.multiplicativeValue, div_eq_mul_inv]
    exact (left leftDivisible).append ((right rightDivisible).swap nonzero)
  pow {base exponent} inner mark negative := by
    by_cases divisible :
        (Expr.arith .pow base (.number exponent inner) mark).IsDivisible interpretation
    · obtain ⟨nonzero, whole, rfl, bounded⟩ := divisible negative
      have below : whole < 0 := by simpa [Number.isNegative] using negative
      exact (reciprocalPower_inverse below bounded).mono fun flipped inverts _ =>
        multipliesTo_inverse inverts (zpow_ne_zero whole nonzero)
    · exact fun _ _ holds => absurd holds divisible

end Products

/-! ## Both chains -/

/-- Filling puts further terms behind those that were there, whichever these are.  The
difference of the sums grows by the value of the tree, and no further term is a sum, a
difference or a negated tree.  The quotient of the products is multiplied by the value of
the tree, and no further divisor is zero. -/
theorem filling_conserves_the_term (interpretation : Expr → K) (tree : Expr) (terms : Terms)
    (start : Nat) :
    (∃ added : Terms, (fillAdditive tree terms).value start = terms.append added ∧
      (∀ term ∈ added.all, term.isAdditiveNode = false) ∧
      ((fillAdditive tree terms).value start).balance (·.additiveValue interpretation) =
        terms.balance (·.additiveValue interpretation) + tree.additiveValue interpretation) ∧
    (tree.IsDivisible interpretation →
      ∃ added : Terms, (fillMultiplicative tree terms).value start = terms.append added ∧
        (added.down.map (·.multiplicativeValue interpretation)).prod ≠ 0 ∧
        ((fillMultiplicative tree terms).value start).quotient
            (·.multiplicativeValue interpretation) =
          terms.quotient (·.multiplicativeValue interpretation) *
            tree.multiplicativeValue interpretation) := by
  refine ⟨?_, fun divisible => ?_⟩
  · have fills : (fillAdditive tree terms).Ensures (fun _ => True)
        (Appends terms (SumsTo interpretation (tree.additiveValue interpretation))) :=
      fillsSum_sumsTo.appends tree terms
    obtain ⟨added, sums, filled⟩ := fills start fun _ _ => trivial
    exact ⟨added, filled, sums.whole, by rw [filled, balance_append, sums.balance]⟩
  · have fills : (fillMultiplicative tree terms).Ensures (fun _ => True) (Appends terms
        fun added => tree.IsDivisible interpretation →
          MultipliesTo interpretation (tree.multiplicativeValue interpretation) added) :=
      fillsProduct_multipliesTo.appends tree terms
    obtain ⟨added, holds, filled⟩ := fills start fun _ _ => trivial
    have multiplies := holds divisible
    exact ⟨added, filled, multiplies.divisible,
      by rw [filled, quotient_append, multiplies.quotient]⟩

/-- The factors of `x / (y * z ^ (-2))` behind a numerator `y` and a denominator `x`, where
`x` is 3, `y` is 5 and `z` is 2. -/
theorem quotient_by_negative_power_is_conserved :
    let interpretation : Expr → ℚ := fun term =>
      if term.asVar? = some "x" then 3 else if term.asVar? = some "y" then 5 else 2
    let tree : Expr := .arith .div (.var "x")
      (.arith .mul (.var "y") (.arith .pow (.var "z") (.int (-2))))
    let filled := (fillMultiplicative tree ⟨[.var "y"], [.var "x"]⟩).value 0
    tree.IsDivisible interpretation ∧ filled.up.length = 3 ∧
      filled.quotient (·.multiplicativeValue interpretation) = 4 := by
  intro interpretation tree filled
  have base : (Expr.var "z").multiplicativeValue interpretation = 2 := rfl
  have divisor : Expr.multiplicativeValue interpretation
      (.arith .mul (.var "y") (.arith .pow (.var "z") (.int (-2)))) = 5 * 2 ^ (-2 : ℤ) := rfl
  have divisible : tree.IsDivisible interpretation :=
    ⟨trivial, ⟨trivial, fun _ => ⟨by rw [base]; norm_num, -2, rfl, by decide⟩⟩,
      by rw [divisor]; norm_num⟩
  obtain ⟨_, _, _, quotient⟩ :=
    (filling_conserves_the_term interpretation tree ⟨[.var "y"], [.var "x"]⟩ 0).2 divisible
  refine ⟨divisible, rfl, quotient.trans ?_⟩
  have value : tree.multiplicativeValue interpretation = 3 / (5 * 2 ^ (-2 : ℤ)) := rfl
  have before : Terms.quotient (·.multiplicativeValue interpretation)
      ⟨[.var "y"], [.var "x"]⟩ = 5 / 3 := by
    have numerator : (Expr.var "y").multiplicativeValue interpretation = 5 := rfl
    have denominator : (Expr.var "x").multiplicativeValue interpretation = 3 := rfl
    simp [Terms.quotient, numerator, denominator]
  rw [value, before]
  norm_num

end SymbolicAlgebra
