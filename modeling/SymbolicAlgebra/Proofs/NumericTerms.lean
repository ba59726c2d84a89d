import SymbolicAlgebra.Proofs.Pieces
import SymbolicAlgebra.Proofs.Soundness.Engine

/-!
# Numeric terms of a chain

Exact numbers among the terms of a chain are next to each other once the terms are
sorted, so one pass of merging leaves at most one of them, with the value of all of
them joined.  A variable among the terms is sorted before the numbers and is left
alone.

The lemmas at the end say when the rules of an operator leave its operands to the
identities and when their terms are collected.
-/

namespace SymbolicAlgebra

/-! ## Leaves of exact numbers -/

namespace Expr

/-- The tree is the leaf of the normal form of a value. -/
def IsLeafOf (value : GaussianRational) (tree : Expr) : Prop :=
  ∃ number mark, Number.Represents number value ∧ tree = .number number mark

end Expr

section Leaves

open SymbolicAlgebra.Expr

variable {kernel : Kernel} {allowed : Step → Prop} {left right : Expr} {z w : GaussianRational}

/-- The value of two numbers joined by the operator of a chain. -/
theorem combine_leaves (kept : ∀ number, ¬ allowed (.inexact number)) (chain : Chain)
    (leftLeaf : left.IsLeafOf z) (rightLeaf : right.IsLeafOf w) :
    (combine kernel chain.op left right).Succeeds allowed (·.IsLeafOf (chain.join z w)) := by
  obtain ⟨x, inner, xRepresents, rfl⟩ := leftLeaf
  obtain ⟨y, outer, yRepresents, rfl⟩ := rightLeaf
  have succeeds : (combine kernel chain.op (.number x inner) (.number y outer)).Succeeds allowed
      (IsExactLeaf (chain.op.onNumbers x y)) :=
    combine_succeeds kept xRepresents.isExact yRepresents.isExact (by cases chain <;> rfl)
  refine Traced.Ensures.mono succeeds ?_
  rintro _ ⟨leaf, rfl, exact, mark, rfl⟩
  refine ⟨_, rfl, _, mark, ?_, rfl⟩
  cases chain with
  | additive => exact xRepresents.run Number.addition_computes yRepresents exact
  | multiplicative => exact xRepresents.run Number.multiplication_computes yRepresents exact

theorem combine_sub_leaves (kept : ∀ number, ¬ allowed (.inexact number))
    (leftLeaf : left.IsLeafOf z) (rightLeaf : right.IsLeafOf w) :
    (combine kernel .sub left right).Succeeds allowed (·.IsLeafOf (z - w)) := by
  obtain ⟨x, inner, xRepresents, rfl⟩ := leftLeaf
  obtain ⟨y, outer, yRepresents, rfl⟩ := rightLeaf
  refine Traced.Ensures.mono
    (combine_succeeds kept xRepresents.isExact yRepresents.isExact rfl) ?_
  rintro _ ⟨leaf, rfl, exact, mark, rfl⟩
  exact ⟨_, rfl, _, mark, xRepresents.run Number.subtraction_computes yRepresents exact, rfl⟩

theorem negateNumber_leaf (kept : ∀ number, ¬ allowed (.inexact number)) {number : Number}
    (represents : number.Represents z) :
    (negateNumber number).Ensures allowed (·.IsLeafOf (-z)) := by
  refine (numeric_isExactLeaf kept (by simp [represents.isExact])).mono ?_
  rintro _ ⟨exact, mark, rfl⟩
  exact ⟨_, mark, Number.neg_represents represents.1 represents.2 exact, rfl⟩

theorem mergePair_leaves {op : ArithOp} {value : GaussianRational}
    (combined : (combine kernel op left right).Succeeds allowed (·.IsLeafOf value)) :
    (mergePair kernel op left right).Succeeds allowed (·.IsLeafOf value) := by
  refine .bind combined ?_
  rintro _ ⟨number, mark, represents, rfl⟩
  exact .pure ⟨number, mark, represents, rfl⟩

end Leaves

/-! ## Numbers, exact or not -/

section Numbers

open SymbolicAlgebra.Expr

variable {kernel : Kernel} {allowed : Step → Prop} {op : ArithOp} {x y : Number}
  {inner outer mark : Mark}

theorem combine_firstError {left right error : Expr} (found : firstError? left right = some error) :
    (combine kernel op left right).Succeeds allowed (· = error) := by
  rw [combine_of_firstError? found]
  exact .pure rfl

/-- Numbers are computed by the operator unless one of them is undefined. -/
theorem combine_numbers (xDefined : x.isNaN = false) (yDefined : y.isNaN = false) :
    (combine kernel op (.number x inner) (.number y outer)).Succeeds allowed
      fun result => ∃ mark, result = .number (op.onNumbers x y) mark := by
  have noError : Rule.ofOption (firstError? (.number x inner) (.number y outer)) = failure := by
    simp [firstError?, isError, asFault?, Expr.isNaN, asNumber?, xDefined, yDefined, Rule.ofOption]
    rfl
  refine .failure_orElse noError (.orElse ?_)
  simp only [numericRule, toNumber?]
  split
  · refine .bind (.lift .step) fun _ _ => .lift (.make fun mark => ⟨mark, rfl⟩)
  · exact .lift (.numeric fun _ mark => ⟨mark, rfl⟩)

theorem isError_of_defined (defined : x.isNaN = false) : (Expr.number x mark).isError = false := by
  simp [isError, asFault?, Expr.isNaN, asNumber?, defined]

theorem applyBinary_numbers (xDefined : x.isNaN = false) (yDefined : y.isNaN = false) :
    (applyBinary kernel op (.number x inner) (.number y outer)).Ensures allowed
      fun result => ∃ mark, result = .number (op.onNumbers x y) mark :=
  (combine_numbers xDefined yDefined).run_match fun _ leaf => .pure leaf

theorem arithmetic_of_defined (xDefined : x.isNaN = false) (yDefined : y.isNaN = false) :
    (arithmetic op (.number x inner) (.number y outer)).Ensures allowed
      fun result => ∃ mark, result = .number (op.onNumbers x y) mark := by
  obtain ⟨depth, engine⟩ := arithmetic_eq_applyBinary op (.number x inner) (.number y outer)
  rw [engine]
  exact applyBinary_numbers xDefined yDefined

/-- An undefined number is handed on, and all others are computed. -/
theorem arithmetic_numbers (op : ArithOp) (x y : Number) (inner outer : Mark) :
    (arithmetic op (.number x inner) (.number y outer)).Ensures allowed fun result =>
      ∃ number mark, result = .number number mark ∧
        (number.isExact = true → number = op.onNumbers x y) := by
  obtain ⟨depth, engine⟩ := arithmetic_eq_applyBinary op (.number x inner) (.number y outer)
  have inexact {number : Number} (undefined : number.isNaN = true)
      (exact : number.isExact = true) : number = op.onNumbers x y :=
    absurd (exact.symm.trans (Number.isExact_of_isNaN undefined)) (by decide)
  cases xUndefined : x.isNaN with
  | true =>
      have found : firstError? (.number x inner) (.number y outer) = some (.number x inner) := by
        simp [firstError?, isError, asFault?, Expr.isNaN, asNumber?, xUndefined]
      rw [engine]
      exact (combine_firstError found).run_match fun _ same =>
        .pure ⟨x, inner, same, inexact xUndefined⟩
  | false =>
      cases yUndefined : y.isNaN with
      | true =>
          have found :
              firstError? (.number x inner) (.number y outer) = some (.number y outer) := by
            simp [firstError?, isError, asFault?, Expr.isNaN, asNumber?, xUndefined, yUndefined]
          rw [engine]
          exact (combine_firstError found).run_match fun _ same =>
            .pure ⟨y, outer, same, inexact yUndefined⟩
      | false =>
          refine (arithmetic_of_defined xUndefined yUndefined).mono ?_
          rintro _ ⟨mark, rfl⟩
          exact ⟨_, mark, rfl, fun _ => rfl⟩

end Numbers

/-! ## Tidying numbers -/

/-- The terms are numbers, which have this value when they are joined. -/
inductive Amounts (chain : Chain) : List Expr → GaussianRational → Prop where
  | nil : Amounts chain [] chain.unit
  | cons {term : Expr} {terms : List Expr} {first rest : GaussianRational} :
      term.IsLeafOf first → Amounts chain terms rest →
        Amounts chain (term :: terms) (chain.join first rest)

/-- At most one number is left, which has this value. -/
inductive Remainder (chain : Chain) : List Expr → GaussianRational → Prop where
  | none : Remainder chain [] chain.unit
  | leaf {term : Expr} {value : GaussianRational} :
      term.IsLeafOf value → Remainder chain [term] value

section Tidying

open SymbolicAlgebra.Expr

variable {chain : Chain} {term : Expr} {terms others before : List Expr}
  {z w value : GaussianRational} {name : String} {mark : Mark}

theorem Amounts.singleton (leaf : term.IsLeafOf value) : Amounts chain [term] value := by
  simpa using Amounts.cons leaf .nil

theorem Remainder.amounts (remainder : Remainder chain terms value) :
    Amounts chain terms value := by
  cases remainder with
  | none => exact .nil
  | leaf leaf => exact .singleton leaf

theorem Amounts.perm (amounts : Amounts chain terms value) (permuted : terms.Perm others) :
    Amounts chain others value := by
  induction permuted generalizing value with
  | nil => exact amounts
  | cons term _ ih =>
      cases amounts with
      | cons leaf rest => exact .cons leaf (ih rest)
  | swap first second terms =>
      cases amounts with
      | @cons _ _ secondValue _ secondLeaf rest =>
          cases rest with
          | @cons _ _ firstValue value firstLeaf rest =>
              have swapped : chain.join secondValue (chain.join firstValue value) =
                  chain.join firstValue (chain.join secondValue value) := by ac_rfl
              rw [swapped]
              exact .cons firstLeaf (.cons secondLeaf rest)
  | trans _ _ firstIH secondIH => exact secondIH (firstIH amounts)

theorem Amounts.append (amounts : Amounts chain terms z) (otherAmounts : Amounts chain others w) :
    Amounts chain (terms ++ others) (chain.join z w) := by
  induction amounts with
  | nil => rwa [List.nil_append, Chain.unit_join]
  | cons leaf _ ih =>
      rw [List.cons_append, Chain.join_assoc]
      exact .cons leaf ih

theorem Amounts.isLeafOf (amounts : Amounts chain terms value) (member : term ∈ terms) :
    ∃ z, term.IsLeafOf z := by
  induction amounts with
  | nil => contradiction
  | cons leaf _ ih =>
      rcases List.mem_cons.mp member with rfl | member
      · exact ⟨_, leaf⟩
      · exact ih member

theorem Expr.IsLeafOf.key (leaf : term.IsLeafOf value) : TermKey.of chain term = .numeric := by
  obtain ⟨number, mark, _, rfl⟩ := leaf
  cases chain <;> rfl

theorem key_var : TermKey.of chain (.var name mark) = .var name := by
  cases chain <;> rfl

theorem sameKey_leaves {first second : Expr} (firstLeaf : first.IsLeafOf z)
    (secondLeaf : second.IsLeafOf w) : sameKey chain first second = true := by
  rw [sameKey, firstLeaf.key, secondLeaf.key]
  rfl

theorem sameKey_var_leaf (leaf : term.IsLeafOf value) :
    sameKey chain (.var name mark) term = false := by
  rw [sameKey, leaf.key, key_var]
  rfl

/-- A variable comes before all numbers. -/
theorem sortTerms_var (amounts : Amounts chain others value)
    (permuted : terms.Perm (.var name mark :: others)) :
    ∃ sorted, sortTerms chain terms = .var name mark :: sorted ∧ Amounts chain sorted value := by
  have reordered := (sortTerms_perm chain terms).trans permuted
  have inOrder := sortTerms_sorted chain terms
  cases sorts : sortTerms chain terms with
  | nil =>
      rw [sorts] at reordered
      exact absurd reordered.symm (List.cons_ne_nil _ _ ∘ List.Perm.eq_nil)
  | cons first rest =>
      rw [sorts] at reordered inOrder
      rcases List.mem_cons.mp (reordered.mem_iff.mp List.mem_cons_self) with rfl | isNumber
      · exact ⟨rest, rfl, amounts.perm reordered.cons_inv.symm⟩
      · -- A number in front would stand before the variable.
        obtain ⟨z, leaf⟩ := amounts.isLeafOf isNumber
        rcases List.mem_cons.mp (reordered.mem_iff.mpr List.mem_cons_self) with rfl | later
        · obtain ⟨number, mark, _, impossible⟩ := leaf
          cases impossible
        · have before := (List.pairwise_cons.mp inOrder).1 _ later
          rw [termOrder, leaf.key, key_var] at before
          cases before

variable {kernel : Kernel} {allowed : Step → Prop}

/-- A number absorbs all numbers behind it. -/
theorem mergeRuns_leaf (kept : ∀ number, ¬ allowed (.inexact number)) {nearest : Expr}
    (leaf : nearest.IsLeafOf z) (amounts : Amounts chain terms w) :
    (mergeRuns kernel chain (nearest :: before) terms).Ensures allowed fun merged =>
      ∃ total, total.IsLeafOf (chain.join z w) ∧ merged = before.reverse ++ [total] := by
  induction amounts generalizing nearest z with
  | nil => exact .pure ⟨nearest, by rwa [Chain.join_unit], List.reverse_cons⟩
  | @cons term rest first total termLeaf _ ih =>
      have absorbs : (absorb kernel chain term (nearest :: before)).Succeeds allowed fun merged =>
          ∃ sum, sum.IsLeafOf (chain.join z first) ∧ merged = sum :: before := by
        rw [absorb, sameKey_leaves leaf termLeaf, if_pos rfl]
        refine .orElse (.bind (mergePair_leaves (combine_leaves kept chain leaf termLeaf)) ?_)
        exact fun sum sumLeaf => .pure ⟨sum, sumLeaf, rfl⟩
      refine absorbs.run_match ?_
      rintro _ ⟨sum, sumLeaf, rfl⟩
      rw [← Chain.join_assoc]
      exact ih sumLeaf

/-- Numbers behind a term of another key are merged to one. -/
theorem mergeRuns_numbers (kept : ∀ number, ¬ allowed (.inexact number))
    (apart : ∀ nearest ∈ before, ∀ term z, term.IsLeafOf z → sameKey chain nearest term = false)
    (amounts : Amounts chain terms value) :
    (mergeRuns kernel chain before terms).Ensures allowed fun merged =>
      ∃ rest, Remainder chain rest value ∧ merged = before.reverse ++ rest := by
  cases amounts with
  | nil => exact .pure ⟨[], .none, (List.append_nil _).symm⟩
  | @cons term rest first total leaf amounts =>
      have fails : (absorb kernel chain term before).Ensures allowed fun _ => False := by
        cases before with
        | nil => exact .failure
        | cons nearest before =>
            rw [absorb, apart nearest List.mem_cons_self term first leaf]
            exact .failure
      refine fails.run_none ?_
      refine (mergeRuns_leaf kept leaf amounts).mono ?_
      rintro _ ⟨sum, sumLeaf, rfl⟩
      exact ⟨[sum], .leaf sumLeaf, rfl⟩

theorem tidy_numbers (kept : ∀ number, ¬ allowed (.inexact number))
    (amounts : Amounts chain terms value) :
    (tidy kernel chain terms).Ensures allowed (Remainder chain · value) := by
  have sorted := amounts.perm (sortTerms_perm chain terms).symm
  refine (mergeRuns_numbers kept (List.forall_mem_nil _) sorted).mono ?_
  rintro _ ⟨rest, remainder, rfl⟩
  exact remainder

theorem tidy_var (kept : ∀ number, ¬ allowed (.inexact number))
    (amounts : Amounts chain others value)
    (permuted : terms.Perm (.var name mark :: others)) :
    (tidy kernel chain terms).Ensures allowed fun tidied =>
      ∃ rest, Remainder chain rest value ∧ tidied = .var name mark :: rest := by
  obtain ⟨sorted, sorts, sortedAmounts⟩ := sortTerms_var amounts permuted
  have alone : (absorb kernel chain (.var name mark) []).Ensures allowed fun _ => False := .failure
  rw [tidy, sorts]
  refine alone.run_none ?_
  refine (mergeRuns_numbers kept ?_ sortedAmounts).mono ?_
  · intro nearest member term z leaf
    obtain rfl := List.mem_singleton.mp member
    exact sameKey_var_leaf leaf
  · rintro _ ⟨rest, remainder, rfl⟩
    exact ⟨rest, remainder, rfl⟩

end Tidying

open SymbolicAlgebra.Expr

/-! ## Rules that do not apply -/

theorem isConstant_of_toNumber? {tree : Expr} {number : Number}
    (view : tree.toNumber? = some number) : tree.isConstant = true := by
  cases tree with
  | number | bool => rfl
  | _ => cases view

/-- Operands that are no errors, arrays or constants are left to the identities of
the operator. -/
theorem combine_eq_identities {kernel : Kernel} {op : ArithOp} {left right : Expr}
    (noError : left.isError = false ∧ right.isError = false)
    (noArray : left.asArray? = none ∧ right.asArray? = none)
    (symbolic : left.isConstant = false ∨ right.isConstant = false) :
    combine kernel op left right = identities kernel op left right := by
  have noNumbers : numericRule op left right = failure := by
    unfold numericRule
    split
    · rename_i leftView rightView
      rw [isConstant_of_toNumber? leftView, isConstant_of_toNumber? rightView] at symbolic
      rcases symbolic with symbolic | symbolic <;> cases symbolic
    · rfl
  have noText : textRule (.arith op) left right = failure := by
    unfold textRule
    split
    · rcases symbolic with symbolic | symbolic <;> cases symbolic
    · rw [if_neg]
      simp only [Bool.and_eq_true]
      rintro ⟨⟨_, leftConstant⟩, rightConstant⟩
      rcases symbolic with symbolic | symbolic <;> simp_all
  rw [combine, firstError?, noError.1, noError.2, noNumbers, arrayRule, noArray.1, noArray.2,
    noText]
  rfl

section Listing

variable {kernel : Kernel} {allowed : Step → Prop} {chain : Chain} {op : ArithOp}
  {left right : Expr} {condition : Expr → Prop}

/-- The terms of two operands, where they are enough, are collected. -/
theorem collectOrBuild_collects (terms : Terms) (family : Chain.of? op = some chain)
    (fills : fillOperands chain op left right .empty = pure terms)
    (enough : chain.shouldCollect terms.up.length terms.down.length = true)
    (collects : (collect kernel chain terms).Ensures allowed condition) :
    (collectOrBuild kernel op left right).Ensures allowed condition := by
  unfold collectOrBuild
  rw [family]
  have filled : (fillOperands chain op left right .empty).Ensures allowed (· = terms) := by
    rw [fills]
    exact .pure rfl
  refine collectFilled_ensures filled ?_
  rintro _ rfl
  rwa [if_pos enough]

/-- Where there are too few terms, the plain node is built. -/
theorem collectOrBuild_builds (terms : Terms) (family : Chain.of? op = some chain)
    (fills : fillOperands chain op left right .empty = pure terms)
    (few : chain.shouldCollect terms.up.length terms.down.length = false)
    (holds : ∀ mark, condition (.arith op left right mark)) :
    (collectOrBuild kernel op left right).Ensures allowed condition := by
  unfold collectOrBuild
  rw [family]
  have filled : (fillOperands chain op left right .empty).Ensures allowed (· = terms) := by
    rw [fills]
    exact .pure rfl
  refine collectFilled_ensures filled ?_
  rintro _ rfl
  rw [few]
  exact .make holds

end Listing

end SymbolicAlgebra
