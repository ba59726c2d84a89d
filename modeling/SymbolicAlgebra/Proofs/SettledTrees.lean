import SymbolicAlgebra.Proofs.PositiveProducts
import SymbolicAlgebra.Proofs.SettledSums
import SymbolicAlgebra.Proofs.SimplifiedTrees
import SymbolicAlgebra.Proofs.Termination.Evaluation

/-!
# Settled trees

A tree is settled when it is a leaf or a settled sum, product or quotient.  Trees that show
the same form agree, so that simplifying a settled tree once more gives a tree that agrees
with it.

Not every simplified tree is settled: a chain of subtrahends begins with a negated one, which
is left to the next run when it is a number.
-/

namespace SymbolicAlgebra

open SymbolicAlgebra.Expr

/-! ## Trees of one form agree -/

section Agreement

variable {factor : Factor} {factors : List Factor} {form : MonomialForm}
  {added subtracted : List MonomialForm} {tree left right : Expr}

theorem Expr.beq_number {value : Number} {inner outer : Mark} (defined : value.isNaN = false) :
    (Expr.number value inner == .number value outer) = true := by
  change agree (.number value inner) (.number value outer) = true
  simp [agree, Number.beq_self defined]

theorem Expr.beq_arith {op : ArithOp} {first second : Expr} {inner outer : Mark}
    (leftEqual : (left == first) = true) (rightEqual : (right == second) = true) :
    (Expr.arith op left right inner == .arith op first second outer) = true :=
  agree_arith.mpr ⟨rfl, leftEqual, rightEqual⟩

theorem Factor.Shows.beq (leftShows : factor.Shows left) (rightShows : factor.Shows right)
    (reduced : factor.IsReduced) : (left == right) = true := by
  cases leftShows <;> cases rightShows
  case number.number => exact beq_number reduced.1
  case var.var => simp [BEq.beq, agree]
  case power.power => exact beq_arith (by simp [BEq.beq, agree]) (beq_number reduced.1)

theorem Expr.HasFactors.last (product : tree.HasFactors (factors ++ [factor]))
    (several : factors ≠ []) : ∃ left right mark, tree = .arith .mul left right mark ∧
      left.HasFactors factors ∧ factor.Shows right := by
  generalize whole : factors ++ [factor] = list at product
  cases product with
  | factor => exact absurd (List.append_eq_singleton_iff.mp whole) (by simp [several])
  | mul product shows =>
      obtain ⟨rfl, rfl⟩ := List.append_singleton_inj.mp whole
      exact ⟨_, _, _, rfl, product, shows⟩

theorem Expr.HasFactors.beq (leftProduct : left.HasFactors factors)
    (rightProduct : right.HasFactors factors) (reduced : ∀ factor ∈ factors, factor.IsReduced) :
    (left == right) = true := by
  induction leftProduct generalizing right with
  | factor shows => exact shows.beq rightProduct.shows (reduced _ List.mem_cons_self)
  | mul product shows ih =>
      rw [List.forall_mem_append, List.forall_mem_singleton] at reduced
      obtain ⟨_, _, _, rfl, otherProduct, otherShows⟩ := rightProduct.last product.ne_nil
      exact beq_arith (ih otherProduct reduced.1) (shows.beq otherShows reduced.2)

theorem Expr.HasNumerator.beq (leftNumerator : left.HasNumerator factors)
    (rightNumerator : right.HasNumerator factors) (reduced : ∀ factor ∈ factors, factor.IsReduced) :
    (left == right) = true := by
  cases leftNumerator with
  | product product =>
      cases rightNumerator with
      | product otherProduct => exact product.beq otherProduct reduced
      | one => exact absurd rfl product.ne_nil
  | one =>
      cases rightNumerator with
      | product otherProduct => exact absurd rfl otherProduct.ne_nil
      | one => rfl

theorem MonomialForm.Shows.beq (leftShows : form.Shows left) (rightShows : form.Shows right)
    (reduced : ∀ factor ∈ form.factors, factor.IsReduced) : (left == right) = true := by
  have ⟨aboveReduced, belowReduced⟩ := List.forall_mem_append.mp reduced
  cases leftShows with
  | whole numerator =>
      cases rightShows with
      | whole otherNumerator => exact numerator.beq otherNumerator aboveReduced
      | quotient _ product => exact absurd rfl product.ne_nil
  | quotient numerator product =>
      cases rightShows with
      | whole => exact absurd rfl product.ne_nil
      | quotient otherNumerator otherProduct =>
          exact beq_arith (numerator.beq otherNumerator aboveReduced)
            (product.beq otherProduct belowReduced)

theorem MonomialForm.IsAddend.beq (isAddend : form.IsAddend) (leftShows : form.Shows left)
    (rightShows : form.Shows right) : (left == right) = true := by
  cases isAddend with
  | number defined =>
      cases (leftShows.hasFactors (List.cons_ne_nil _ _)).shows
      cases (rightShows.hasFactors (List.cons_ne_nil _ _)).shows
      exact beq_number defined
  | monomial settled => exact leftShows.beq rightShows settled.reduced

theorem Expr.HasTerms.lastAdded (terms : tree.HasTerms (added ++ [form]) [])
    (several : added ≠ []) : ∃ left right mark, tree = .arith .add left right mark ∧
      left.HasTerms added [] ∧ form.Shows right := by
  generalize whole : added ++ [form] = list at terms
  generalize none : [] = others at terms
  cases terms with
  | term => exact absurd (List.append_eq_singleton_iff.mp whole) (by simp [several])
  | neg => cases none
  | add terms shows =>
      obtain ⟨rfl, rfl⟩ := List.append_singleton_inj.mp whole
      exact ⟨_, _, _, rfl, terms, shows⟩
  | sub => simp at none

theorem Expr.HasTerms.lastSubtracted (terms : tree.HasTerms added (subtracted ++ [form]))
    (several : subtracted = [] → added ≠ []) : ∃ left right mark,
      tree = .arith .sub left right mark ∧ left.HasTerms added subtracted ∧ form.Shows right := by
  generalize whole : subtracted ++ [form] = list at terms
  cases terms with
  | term | add => simp at whole
  | neg =>
      rw [List.append_eq_singleton_iff] at whole
      rcases whole with ⟨none, _⟩ | ⟨_, ⟨⟩⟩
      exact absurd rfl (several none)
  | sub terms shows =>
      obtain ⟨rfl, rfl⟩ := List.append_singleton_inj.mp whole
      exact ⟨_, _, _, rfl, terms, shows⟩

/-- A sum of one term is this term. -/
theorem Expr.HasTerms.shows (terms : tree.HasTerms [form] []) : form.Shows tree := by
  generalize single : [form] = list at terms
  generalize none : [] = others at terms
  cases terms with
  | term shows => exact (List.singleton_inj.mp single) ▸ shows
  | neg => cases none
  | add terms _ =>
      have nonempty := terms.ne_nil rfl
      rcases List.append_eq_singleton_iff.mp single.symm with ⟨empty, _⟩ | ⟨_, ⟨⟩⟩
      exact absurd empty nonempty
  | sub => simp at none

theorem Expr.HasTerms.negated (terms : tree.HasTerms [] [form]) :
    ∃ operand mark, tree = .unary .neg operand mark ∧ form.Shows operand := by
  generalize single : [form] = others at terms
  generalize none : [] = list at terms
  cases terms with
  | term => cases none
  | neg shows => exact ⟨_, _, rfl, (List.singleton_inj.mp single) ▸ shows⟩
  | add => simp at none
  | sub terms _ =>
      rcases List.append_eq_singleton_iff.mp single.symm with ⟨empty, _⟩ | ⟨_, ⟨⟩⟩
      exact absurd none.symm (terms.ne_nil empty)

theorem Expr.HasTerms.beq (leftTerms : left.HasTerms added subtracted)
    (rightTerms : right.HasTerms added subtracted)
    (isAddend : ∀ form ∈ added ++ subtracted, form.IsAddend) : (left == right) = true := by
  induction leftTerms generalizing right with
  | term shows => exact (isAddend _ List.mem_cons_self).beq shows rightTerms.shows
  | neg shows =>
      obtain ⟨_, _, rfl, otherShows⟩ := rightTerms.negated
      have equal := (isAddend _ List.mem_cons_self).beq shows otherShows
      simpa [BEq.beq, agree] using equal
  | @add added form _ _ _ terms shows ih =>
      obtain ⟨_, _, _, rfl, otherTerms, otherShows⟩ := rightTerms.lastAdded (terms.ne_nil rfl)
      rw [List.append_nil] at isAddend ih
      rw [List.forall_mem_append, List.forall_mem_singleton] at isAddend
      exact beq_arith (ih otherTerms isAddend.1) (isAddend.2.beq shows otherShows)
  | @sub added subtracted form _ _ _ terms shows ih =>
      obtain ⟨_, _, _, rfl, otherTerms, otherShows⟩ := rightTerms.lastSubtracted terms.ne_nil
      rw [← List.append_assoc, List.forall_mem_append, List.forall_mem_singleton] at isAddend
      exact beq_arith (ih otherTerms isAddend.1) (isAddend.2.beq shows otherShows)

end Agreement

/-! ## Settled trees are final -/

/-- A leaf or a settled sum. -/
def Expr.IsSettled (tree : Expr) : Prop :=
  tree.isLeaf = true ∨ ∃ added subtracted, SettledTerms added subtracted ∧
    tree.HasTerms added subtracted

section Simplification

variable {controller : Option Controller} {allowed : Step → Prop} {fuel : Nat} {tree : Expr}

/-- A settled tree evaluates to one that agrees with it. -/
theorem Expr.IsSettled.evaluateTo (settled : tree.IsSettled) (enough : tree.size ≤ fuel) :
    (evaluateTo controller fuel tree).Finishes allowed .empty fun result =>
      (result == tree) = true := by
  rcases settled with isLeaf | ⟨added, subtracted, settledTerms, terms⟩
  · exact evaluateTo_leaf isLeaf enough (agree_self tree)
  · refine (terms.evaluateTo settledTerms enough).mono fun result resultTerms => ?_
    exact resultTerms.beq terms settledTerms.isAddend

/-- Simplifying a settled tree gives one that agrees with it. -/
theorem Expr.IsSettled.simplify?_agrees (settled : tree.IsSettled) (enough : tree.size ≤ fuel)
    (controller : Option Controller) (random : RandomSource) (marks : Nat) :
    ∃ result state, simplify? fuel controller random marks tree = some (result, state) ∧
      (result == tree) = true := by
  have finishes : (Expr.evaluateTo controller fuel tree).Finishes (fun _ => True) .empty _ :=
    settled.evaluateTo enough
  obtain ⟨result, state, run, agrees⟩ := finishes.simplify? random marks
  exact ⟨result, state, run, agrees fun _ _ => trivial⟩

end Simplification

/-! ## Trees that are simplified to settled ones -/

section Settling

variable {form : MonomialForm} {factors : List Factor} {name : String} {tree : Expr}

/-- Factors of different keys are not all numbers, unless there is just one. -/
theorem key_ne_numeric (distinct : (factors.map Factor.key).Nodup) (several : 1 < factors.length) :
    MonomialForm.key ⟨factors, []⟩ ≠ .numeric := by
  intro numeric
  have none : symbolicKeys factors = [] := by
    rw [MonomialForm.key_eq_head] at numeric
    cases keys : symbolicKeys factors with
    | nil => rfl
    | cons key rest =>
        have member : key ∈ symbolicKeys factors := by simp [keys]
        rw [keys, List.head?_cons, Option.getD_some] at numeric
        simp [symbolicKeys, numeric] at member
  have all : ∀ key ∈ factors.map Factor.key, key = .numeric := by
    simpa [symbolicKeys, List.filter_eq_nil_iff] using none
  have single := (List.eq_replicate_of_mem all) ▸ distinct
  rw [List.nodup_replicate, List.length_map] at single
  omega

theorem SettledTerms.single (isAddend : form.IsAddend) : SettledTerms [form] [] :=
  ⟨List.forall_mem_singleton.mpr isAddend, List.nodup_singleton _, List.pairwise_singleton _ _,
    .nil, fun none => absurd none (List.cons_ne_nil _ _)⟩

/-- A settled monomial is a settled sum, or a number. -/
theorem MonomialForm.Shows.isSettled (shows : form.Shows tree) (settled : form.IsSettled) :
    tree.IsSettled := by
  rcases shows.shape with ⟨_, _, rfl⟩ | ⟨_, _, rfl⟩ | ⟨op, left, right, mark, rfl, _⟩
  · exact .inl rfl
  · exact .inl rfl
  · refine .inr ⟨[form], [], .single (.monomial settled ?_), .term shows⟩
    cases shows with
    | whole numerator =>
        cases numerator with
        | product product =>
            cases product with
            | factor shows =>
                cases shows
                simp [MonomialForm.key, Factor.key]
            | mul product =>
                have distinct := settled.distinct
                rw [MonomialForm.factors, List.append_nil] at distinct
                refine key_ne_numeric distinct ?_
                have positive := List.length_pos_iff.mpr product.ne_nil
                rw [List.length_append, List.length_singleton]
                omega
    | quotient _ product =>
        rw [MonomialForm.key, if_neg product.ne_nil]
        decide

theorem Expr.IsSettledProduct.isSettled (product : tree.IsSettledProduct) : tree.IsSettled := by
  obtain ⟨factors, _, settled, numerator⟩ := product
  exact (MonomialForm.Shows.whole numerator).isSettled settled

/-- The exponent of a power that is left over. -/
def PowerForm.IsReduced : PowerForm → Prop
  | power exponent => exponent.isNaN = false ∧ exponent.isZero = false ∧ exponent.isOne = false
  | _ => True

theorem PowerForm.isReduced_ofExponent (exponent : Number) : (ofExponent exponent).IsReduced := by
  unfold ofExponent
  split
  · trivial
  · split
    · trivial
    · split
      · trivial
      · simp_all [IsReduced]

theorem PowerForm.isReduced_raise {form : PowerForm} (reduced : form.IsReduced)
    (exponent : Number) : (form.raise exponent).IsReduced := by
  cases form with
  | base => exact isReduced_ofExponent exponent
  | power inner =>
      rw [raise]
      split
      · trivial
      · split
        · exact reduced
        · exact isReduced_ofExponent _
  | constant value => trivial

theorem PowerForm.Shows.isSettled {form : PowerForm} (shows : form.Shows name tree)
    (reduced : form.IsReduced) : tree.IsSettled := by
  cases form with
  | base =>
      obtain ⟨_, rfl⟩ := shows
      exact .inl rfl
  | power exponent =>
      obtain ⟨_, _, _, _, rfl⟩ := shows
      have settled : MonomialForm.IsSettled ⟨[.power name exponent], []⟩ :=
        MonomialForm.isSettled_single reduced
      exact (MonomialForm.Shows.whole (.product (.factor .power))).isSettled settled
  | constant value =>
      obtain ⟨_, rfl⟩ := shows
      exact .inl rfl

/-- A variable and at most one number. -/
theorem Shifted.isSettled {value : GaussianRational} (shifted : Shifted name value tree) :
    tree.IsSettled := by
  have variableAddend : MonomialForm.IsAddend ⟨[.var name], []⟩ :=
    .monomial (MonomialForm.isSettled_single trivial) (by simp [MonomialForm.key, Factor.key])
  have numberAddend {number : Number} {value : GaussianRational}
      (represents : number.Represents value) (nonzero : value ≠ 0)
      (notNegative : ¬ IsNegative value) :
      MonomialForm.IsAddend ⟨[.number number], []⟩ :=
    .number (Number.isNaN_eq_false_of_isExact represents.isExact)
      (Bool.eq_false_iff.mpr (mt represents.isZero_iff.mp nonzero))
      (Bool.eq_false_iff.mpr (mt represents.isNegative_iff.mp notNegative))
  have shownVariable {mark : Mark} : MonomialForm.Shows ⟨[.var name], []⟩ (.var name mark) :=
    .whole (.product (.factor .var))
  have shownNumber {number : Number} {mark : Mark} :
      MonomialForm.Shows ⟨[.number number], []⟩ (.number number mark) :=
    .whole (.product (.factor .number))
  cases shifted with
  | alone => exact .inl rfl
  | less leaf positive =>
      obtain ⟨number, mark, represents, rfl⟩ := leaf
      refine .inr ⟨_, _, ?_, .sub (.term shownVariable) shownNumber⟩
      refine ⟨?_, by simp [MonomialForm.key, Factor.key], List.pairwise_singleton _ _,
        List.pairwise_singleton _ _, fun none => absurd none (List.cons_ne_nil _ _)⟩
      exact List.forall_mem_cons.mpr ⟨variableAddend, List.forall_mem_singleton.mpr
        (numberAddend represents positive.ne_zero positive.not_isNegative)⟩
  | more leaf nonzero notNegative =>
      obtain ⟨number, mark, represents, rfl⟩ := leaf
      refine .inr ⟨_, _, ?_, .add (.term shownNumber) shownVariable⟩
      refine ⟨?_, by simp [MonomialForm.key, Factor.key], ?_, .nil,
        fun none => absurd none (List.cons_ne_nil _ _)⟩
      · exact List.forall_mem_cons.mpr ⟨numberAddend represents nonzero notNegative,
          List.forall_mem_singleton.mpr variableAddend⟩
      · exact List.pairwise_cons.mpr
          ⟨List.forall_mem_singleton.mpr rfl, List.pairwise_singleton _ _⟩

end Settling

/-- Towers of powers, sums of exact numbers and one variable, and products of positive
numbers and powers of variables. -/
inductive Expr.SettlesAtOnce : Expr → Prop where
  | tower {tree : Expr} {name : String} {exponents : List ℚ} : tree.IsPowerTower name exponents →
      SettlesAtOnce tree
  | sum {tree : Expr} {name : String} : tree.JoinsNumbers .add name →
      tree.occurrences = [] ∨ tree.occurrences = [name] → SettlesAtOnce tree
  | product {tree : Expr} : tree.IsPositiveProduct → SettlesAtOnce tree

theorem Expr.SettlesAtOnce.evaluateTo {tree : Expr} {fuel : Nat} {controller : Option Controller}
    (settles : tree.SettlesAtOnce) (enough : tree.size ≤ fuel) :
    (Expr.evaluateTo controller fuel tree).Finishes (·.staysInRange = true) .empty IsSettled := by
  have kept : ∀ number, ¬ (Step.inexact number).staysInRange = true := fun _ => Bool.false_ne_true
  cases settles with
  | tower tower =>
      refine (tower.evaluateTo_shows (fun _ form => form.IsReduced) ?_ ?_ enough).mono ?_
      · intro mark fuel
        exact evaluateTo_leaf rfl (Nat.le_add_left 1 fuel) ⟨.base, trivial, ⟨mark, rfl⟩, le_refl 1⟩
      · exact fun reduced _ => PowerForm.isReduced_raise reduced _
      · rintro result ⟨form, reduced, shows, _⟩
        exact shows.isSettled reduced
  | @sum name joins occurrences =>
      refine (evaluateTo_collapses kept (absorbs_shifted kept name) joins (fun _ _ => trivial)
        enough).mono fun result collapses => ?_
      rcases occurrences with none | single
      · obtain ⟨_, _, _, _, _, _, rfl⟩ := collapses.1 none
        exact .inl rfl
      · exact (collapses.2 single).isSettled
  | product product =>
      exact (product.evaluateTo enough).mono fun result holds => holds.2.isSettled

/-- Simplifying a simplified rational function gives a tree of the same value, wherever the
function is defined; constants become numbers.  It gives a tree that agrees with the first
result when that is settled: a leaf, or a sum of monomials with their factors collected, of
which no two belong to one key, in the order in which collected terms are read.  Towers of
powers, sums of exact numbers and one variable, and products of positive numbers and powers
of variables are all simplified to settled trees. -/
theorem simplified_trees_agree (tree : Expr) (fuel : Nat) (enough : tree.size ≤ fuel)
    (controller : Option Controller) (random : RandomSource) (marks : Nat) :
    (∀ (valuation : String → Option ℚ) (value : ℚ), tree.isRationalFunction = true →
      tree.denote valuation = some value →
        ∃ once state, simplify? fuel controller random marks tree = some (once, state) ∧
          ((∀ step ∈ state.trace, step.staysInRange = true) →
            ((∀ name, valuation name = none) → once.isNumber = true) ∧
            ∀ more, once.size ≤ more → ∃ twice next,
              simplify? more controller state.random state.marks once = some (twice, next) ∧
              (once.IsSettled → (twice == once) = true) ∧
              ((∀ step ∈ next.trace, step.staysInRange = true) →
                twice.isRationalFunction = true ∧
                  twice.denote valuation = once.denote valuation))) ∧
    (tree.SettlesAtOnce →
      ∃ once state, simplify? fuel controller random marks tree = some (once, state) ∧
        ((∀ step ∈ state.trace, step.staysInRange = true) → once.IsSettled ∧
          ∀ more, once.size ≤ more → ∃ twice next,
            simplify? more controller state.random state.marks once = some (twice, next) ∧
              (twice == once) = true)) := by
  constructor
  · intro valuation value rational denotes
    obtain ⟨once, state, run, again⟩ := simplifying_twice_keeps_value tree valuation value rational
      denotes fuel enough controller random marks
    refine ⟨once, state, run, fun admitted => ⟨(again admitted).1, fun more enoughMore => ?_⟩⟩
    obtain ⟨twice, next, nextRun, keeps, _⟩ := (again admitted).2 more enoughMore
    refine ⟨twice, next, nextRun, fun settled => ?_, keeps⟩
    obtain ⟨_, _, sameRun, agrees⟩ :=
      settled.simplify?_agrees enoughMore controller state.random state.marks
    rw [nextRun, Option.some.injEq, Prod.mk.injEq] at sameRun
    exact sameRun.1 ▸ agrees
  · intro settles
    obtain ⟨once, state, run, settled⟩ := (settles.evaluateTo enough).simplify? random marks
    refine ⟨once, state, run, fun admitted => ⟨settled admitted, fun more enoughMore => ?_⟩⟩
    exact (settled admitted).simplify?_agrees enoughMore controller state.random state.marks

/-- The difference of `3 - x` and `4` keeps its value where `x` is `1 / 2`, and the product
of `2 * y` and `x ^ 3 * y` is simplified to a settled one. -/
theorem difference_keeps_value_and_product_settles :
    let difference : Expr := .arith .sub (.arith .sub (.int 3) (.var "x")) (.int 4)
    let product : Expr := .arith .mul (.arith .mul (.int 2) (.var "y"))
      (.arith .mul (.arith .pow (.var "x") (.int 3)) (.var "y"))
    (∃ once state twice next,
      simplify? 5 none (.ofSeed 1) 0 difference = some (once, state) ∧
      simplify? 5 none state.random state.marks once = some (twice, next) ∧
      twice.denote (fun _ => some (1 / 2 : ℚ)) = once.denote (fun _ => some (1 / 2 : ℚ))) ∧
    ∃ once state twice next,
      simplify? 9 none (.ofSeed 1) 0 product = some (once, state) ∧ once.IsSettled ∧
      simplify? once.size none state.random state.marks once = some (twice, next) ∧
      (twice == once) = true := by
  intro difference product
  constructor
  · have evaluated : (simplify? 5 none (.ofSeed 1) 0 difference).all (fun once =>
        once.2.trace.all Step.staysInRange && once.1.size ≤ 5 &&
          (simplify? 5 none once.2.random once.2.marks once.1).all
            (·.2.trace.all Step.staysInRange)) = true := by decide +kernel
    obtain ⟨once, state, run, again⟩ := (simplified_trees_agree difference 5 (by decide) none
      (.ofSeed 1) 0).1 (fun _ => some (1 / 2)) (-3 / 2) (by decide +kernel) (by decide +kernel)
    rw [run, Option.all_some, Bool.and_eq_true, Bool.and_eq_true, List.all_eq_true,
      decide_eq_true_iff] at evaluated
    obtain ⟨⟨admitted, small⟩, nextAdmitted⟩ := evaluated
    obtain ⟨twice, next, nextRun, _, keeps⟩ := (again admitted).2 5 small
    rw [nextRun, Option.all_some, List.all_eq_true] at nextAdmitted
    exact ⟨once, state, twice, next, run, nextRun, (keeps nextAdmitted).2⟩
  · have evaluated : (simplify? 9 none (.ofSeed 1) 0 product).all
        (·.2.trace.all Step.staysInRange) = true := by decide +kernel
    have inRange : InRange 2 := by decide
    have two : (Expr.int 2).IsPositiveProduct :=
      .factor (.number ⟨.int 2, _, ⟨inRange, rfl⟩, rfl⟩ two_pos)
    have y : (Expr.var "y").IsPositiveProduct := .factor (.power .var one_pos)
    have cube : (Expr.arith .pow (.var "x") (.int 3)).IsPositiveProduct :=
      .factor (.power (.power (by decide)) three_pos)
    have isProduct : product.IsPositiveProduct := by
      have single {left : Expr} (one : left.factorCount = 1) :
          ¬ 1 < left.factorCount := one.not_gt
      refine .mul (.mul two y fun several => absurd several (single rfl))
        (.mul cube y fun several => absurd several (single rfl)) fun _ _ same => ?_
      exact absurd (same.degree "x") (by decide)
    obtain ⟨once, state, run, again⟩ := (simplified_trees_agree product 9 (by decide) none
      (.ofSeed 1) 0).2 (.product isProduct)
    rw [run, Option.all_some, List.all_eq_true] at evaluated
    obtain ⟨settled, agrees⟩ := again evaluated
    obtain ⟨twice, next, nextRun, same⟩ := agrees once.size (le_refl _)
    exact ⟨once, state, twice, next, run, settled, nextRun, same⟩

/-- The same difference is simplified to `-(1) - x`, and this to `-1 - x`: the
chain has no addends left and begins with a negated subtrahend, a number, on
which the minus sign stays until the next run. -/
theorem difference_simplified_twice_differs :
    (simplify? 5 none (.ofSeed 1) 0
      (.arith .sub (.arith .sub (.int 3) (.var "x")) (.int 4))).any (fun once =>
        once.1 == .arith .sub (.unary .neg (.int 1)) (.var "x") &&
          (simplify? 5 none once.2.random once.2.marks once.1).any fun twice =>
            twice.1 == .arith .sub (.int (-1)) (.var "x") && !(twice.1 == once.1)) = true := by
  decide +kernel

end SymbolicAlgebra
