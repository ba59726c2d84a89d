import SymbolicAlgebra.Arithmetic.Terms
import SymbolicAlgebra.Proofs.Ensures

/-!
# Filling the lists of a chain

The terms of a tree are put behind those that are in the lists already, and which terms these
are makes no difference.  The terms of two operands come one behind the other, and an operand
that counts inversely is filled into exchanged lists.

So a property that relates a tree to its terms is settled by one condition for each kind of
node.  The induction over the trees is done here once for sums and once for products.
-/

namespace SymbolicAlgebra

namespace Terms

/-- More terms behind those already there. -/
def append (terms added : Terms) : Terms := ⟨terms.up ++ added.up, terms.down ++ added.down⟩

end Terms

/-- The result has terms that meet a condition behind those that were there. -/
def Appends (terms : Terms) (condition : Terms → Prop) (result : Terms) : Prop :=
  ∃ added : Terms, condition added ∧ result = terms.append added

variable {allowed : Step → Prop} {first second both : Terms → Prop}

theorem Appends.push {terms : Terms} {condition : Terms → Prop} {term : Expr}
    (holds : condition ⟨[term], []⟩) : Appends terms condition (terms.push term) :=
  ⟨_, holds, by simp [Terms.push, Terms.append]⟩

theorem Appends.of_empty {condition : Terms → Prop} {result : Terms}
    (appended : Appends .empty condition result) : condition result := by
  obtain ⟨added, holds, rfl⟩ := appended
  exact holds

/-- The terms of two operands, one behind the other. -/
theorem fill_appends {fillLeft fillRight : Terms → Traced Terms} {terms : Terms}
    (left : (fillLeft terms).Ensures allowed (Appends terms first))
    (right : ∀ terms, (fillRight terms).Ensures allowed (Appends terms second))
    (joined : ∀ {added others : Terms}, first added → second others →
      both (added.append others)) :
    (fillLeft terms >>= fillRight).Ensures allowed (Appends terms both) := by
  refine .bind left ?_
  rintro _ ⟨added, addedHolds, rfl⟩
  refine (right _).mono ?_
  rintro _ ⟨others, othersHold, rfl⟩
  exact ⟨_, joined addedHolds othersHold, by simp [Terms.append]⟩

/-- The terms of an operand that counts inversely. -/
theorem fill_appendsSwapped {fill : Terms → Traced Terms} {terms : Terms}
    (operand : (fill terms.swap).Ensures allowed (Appends terms.swap first))
    (turned : ∀ {added : Terms}, first added → both added.swap) :
    (fill terms.swap >>= fun terms => pure terms.swap).Ensures allowed (Appends terms both) := by
  refine .bind operand ?_
  rintro _ ⟨added, holds, rfl⟩
  exact .pure ⟨added.swap, turned holds, rfl⟩

/-- The terms of an operand and, on the other sides, those of an inverse one. -/
theorem fill_appendsInverse {fillLeft fillRight : Terms → Traced Terms} {terms : Terms}
    (left : (fillLeft terms).Ensures allowed (Appends terms first))
    (right : ∀ terms : Terms, (fillRight terms.swap).Ensures allowed (Appends terms.swap second))
    (joined : ∀ {added others : Terms}, first added → second others →
      both (added.append others.swap)) :
    (fillLeft terms >>= fun terms => fillRight terms.swap >>= fun terms =>
      pure terms.swap).Ensures allowed (Appends terms both) := by
  have turned : ∀ terms : Terms, (fillRight terms.swap >>= fun terms => pure terms.swap).Ensures
      allowed (Appends terms fun added => second added.swap) :=
    fun terms => fill_appendsSwapped (right terms) fun holds => holds
  exact fill_appends left turned fun addedHolds othersHold => joined addedHolds othersHold

/-! ## Sums -/

/-- A sum, a difference or a negated tree. -/
def Expr.isAdditiveNode : Expr → Bool
  | .arith .add _ _ _ | .arith .sub _ _ _ | .unary .neg _ _ => true
  | _ => false

/-- A property of trees and their addends and subtrahends that goes from the operands to
their sum, their difference and their negation. -/
structure FillsSum (Holds : Expr → Terms → Prop) : Prop where
  single : ∀ {term : Expr}, term.isAdditiveNode = false → Holds term ⟨[term], []⟩
  add : ∀ {left right : Expr} {added others : Terms} (mark : Mark), Holds left added →
    Holds right others → Holds (.arith .add left right mark) (added.append others)
  sub : ∀ {left right : Expr} {added others : Terms} (mark : Mark), Holds left added →
    Holds right others → Holds (.arith .sub left right mark) (added.append others.swap)
  neg : ∀ {operand : Expr} {added : Terms} (mark : Mark), Holds operand added →
    Holds (.unary .neg operand mark) added.swap

theorem FillsSum.appends {Holds : Expr → Terms → Prop} (fills : FillsSum Holds) (tree : Expr)
    (terms : Terms) : (fillAdditive tree terms).Ensures allowed (Appends terms (Holds tree)) := by
  induction tree, terms using fillAdditive.induct with
  | case1 left right mark terms leftIH rightIH =>
      exact fill_appends leftIH rightIH (fills.add mark)
  | case2 left right mark terms leftIH rightIH =>
      exact fill_appendsInverse leftIH rightIH (fills.sub mark)
  | case3 operand mark terms ih => exact fill_appendsSwapped ih (fills.neg mark)
  | case4 term terms notSum notDifference notNegation =>
      have whole : term.isAdditiveNode = false := by
        unfold Expr.isAdditiveNode
        split
        · exact absurd rfl (notSum _ _ _)
        · exact absurd rfl (notDifference _ _ _)
        · exact absurd rfl (notNegation _ _)
        · rfl
      rw [fillAdditive]
      · exact .pure (.push (fills.single whole))
      all_goals assumption

/-! ## Products -/

/-- A property of trees and their factors and divisors that goes from the operands to their
product and their quotient, and from a negative power to the power that is moved. -/
structure FillsProduct (allowed : Step → Prop) (Holds : Expr → Terms → Prop) : Prop where
  single : ∀ term, Holds term ⟨[term], []⟩
  mul : ∀ {left right : Expr} {added others : Terms} (mark : Mark), Holds left added →
    Holds right others → Holds (.arith .mul left right mark) (added.append others)
  div : ∀ {left right : Expr} {added others : Terms} (mark : Mark), Holds left added →
    Holds right others → Holds (.arith .div left right mark) (added.append others.swap)
  pow : ∀ {base : Expr} {exponent : Number} (inner mark : Mark), exponent.isNegative = true →
    (reciprocalPower base exponent).Ensures allowed fun flipped =>
      Holds (.arith .pow base (.number exponent inner) mark) ⟨[], [flipped]⟩

theorem FillsProduct.appends {Holds : Expr → Terms → Prop} (fills : FillsProduct allowed Holds)
    (tree : Expr) (terms : Terms) :
    (fillMultiplicative tree terms).Ensures allowed (Appends terms (Holds tree)) := by
  induction tree, terms using fillMultiplicative.induct with
  | case1 left right mark terms leftIH rightIH =>
      exact fill_appends leftIH rightIH (fills.mul mark)
  | case2 left right mark terms leftIH rightIH =>
      exact fill_appendsInverse leftIH rightIH (fills.div mark)
  | case3 base exponent inner mark terms isNegative =>
      unfold fillMultiplicative
      rw [if_pos isNegative]
      refine .bind (fills.pow inner mark isNegative) fun flipped holds => .pure ?_
      exact ⟨_, holds, by simp [Terms.append, Terms.swap, Terms.push]⟩
  | case4 base exponent inner mark terms nonnegative =>
      unfold fillMultiplicative
      rw [if_neg nonnegative]
      exact .pure (.push (fills.single _))
  | case5 term terms notProduct notQuotient notPower =>
      rw [fillMultiplicative]
      · exact .pure (.push (fills.single term))
      all_goals assumption

end SymbolicAlgebra
