import SymbolicAlgebra.Proofs.Differentiation

/-!
# Simplifying once more

Simplifying a simplified tree keeps its value.  What is simplified to a leaf stays as
it is; constants are, to a number.
-/

namespace SymbolicAlgebra

open SymbolicAlgebra.Expr

/-- A tree that has a value without those of variables is simplified to a
number. -/
theorem simplify?_constant {tree : Expr} {value : ℚ} {fuel : Nat}
    (means : Means (.rationals fun _ => none) tree value) (enough : tree.size ≤ fuel)
    (controller : Option Controller) (random : RandomSource) (marks : Nat) :
    ∃ result state, simplify? fuel controller random marks tree = some (result, state) ∧
      ((∀ step ∈ state.trace, step.staysInRange = true) → result.isNumber = true) := by
  have resolves : Resolves .empty (fun _ => none) (fun _ => none) (·.isNumber = true) :=
    fun _ _ _ found => nomatch found
  have finishes : (evaluateTo controller fuel tree).Finishes _ _ _ :=
    evaluateTo_finishes closed_isNumber resolves means enough
  obtain ⟨result, state, run, yields⟩ := finishes.simplify? random marks
  exact ⟨result, state, run, fun admitted => (yields admitted).2⟩

theorem simplify?_leaf {tree : Expr} {fuel : Nat} (isLeaf : tree.isLeaf = true)
    (enough : tree.size ≤ fuel) (controller : Option Controller) (random : RandomSource)
    (marks : Nat) :
    ∃ state, simplify? fuel controller random marks tree = some (tree, state) := by
  have final : (evaluateTo controller fuel tree).Finishes (fun _ => True) .empty (· = tree) :=
    evaluateTo_leaf isLeaf enough rfl
  obtain ⟨result, state, run, same⟩ := final.simplify? random marks
  exact ⟨state, by rw [run, same fun _ _ => trivial]⟩

/-- Simplifying a simplified rational function gives a tree of the same value,
wherever the function is defined.  It gives the very same tree when that is a leaf,
such as the number that a constant is simplified to. -/
theorem simplifying_twice_keeps_value (tree : Expr) (valuation : String → Option ℚ) (value : ℚ)
    (rational : tree.isRationalFunction = true) (denotes : tree.denote valuation = some value)
    (fuel : Nat) (enough : tree.size ≤ fuel) (controller : Option Controller)
    (random : RandomSource) (marks : Nat) :
    ∃ once state, simplify? fuel controller random marks tree = some (once, state) ∧
      ((∀ step ∈ state.trace, step.staysInRange = true) →
        ((∀ name, valuation name = none) → once.isNumber = true) ∧
        ∀ more, once.size ≤ more → ∃ twice next,
          simplify? more controller state.random state.marks once = some (twice, next) ∧
          ((∀ step ∈ next.trace, step.staysInRange = true) →
            twice.isRationalFunction = true ∧ twice.denote valuation = once.denote valuation) ∧
          (once.isLeaf = true → twice = once)) := by
  have means := means_rationals_iff.mpr ⟨rational, denotes⟩
  obtain ⟨once, state, run, holds⟩ := simplify?_means means enough controller random marks
  refine ⟨once, state, run, fun admitted => ⟨fun constant => ?_, fun more enoughMore => ?_⟩⟩
  · obtain rfl : valuation = fun _ => none := funext constant
    obtain ⟨_, _, sameRun, isNumber⟩ := simplify?_constant means enough controller random marks
    rw [run, Option.some.injEq, Prod.mk.injEq] at sameRun
    obtain ⟨rfl, rfl⟩ := sameRun
    exact isNumber admitted
  · have onceMeans := holds admitted
    obtain ⟨twice, next, nextRun, nextHolds⟩ :=
      simplify?_means onceMeans enoughMore controller state.random state.marks
    refine ⟨twice, next, nextRun, fun nextAdmitted => ?_, fun isLeaf => ?_⟩
    · have ⟨twiceRational, twiceDenotes⟩ := means_rationals_iff.mp (nextHolds nextAdmitted)
      exact ⟨twiceRational, twiceDenotes.trans (means_rationals_iff.mp onceMeans).2.symm⟩
    · obtain ⟨_, leafRun⟩ :=
        simplify?_leaf isLeaf enoughMore controller state.random state.marks
      rw [nextRun, Option.some.injEq, Prod.mk.injEq] at leafRun
      exact leafRun.1

end SymbolicAlgebra
