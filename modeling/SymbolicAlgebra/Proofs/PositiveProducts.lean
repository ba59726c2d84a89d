import SymbolicAlgebra.Proofs.SettledMonomials

/-!
# Products of positive factors

A product of positive numbers and of variables with positive whole exponents is simplified
to a settled one.  Collecting merges the factors of each key and sorts what is left, and no
exponent that is added up is one.  A product that is multiplied by itself is left out, since
it becomes a power of a product.
-/

namespace SymbolicAlgebra

open SymbolicAlgebra.Expr TermKey

/-! ## Positive factors -/

/-- A positive number, a variable or a power above the first. -/
inductive Factor.IsPositive : Factor → Prop where
  | number {number : Number} {value : ℚ} : number.Represents ⟨value, 0⟩ → 0 < value →
      IsPositive (.number number)
  | var {name : String} : IsPositive (.var name)
  | power {name : String} {exponent : ℤ} : InRange exponent → 1 < exponent →
      IsPositive (.power name (.int exponent))

/-- The tree is a positive factor. -/
def Expr.IsPositiveFactor (tree : Expr) : Prop :=
  ∃ factor : Factor, factor.IsPositive ∧ factor.Shows tree

section Factors

variable {factor : Factor} {tree first second merged : Expr}

theorem Factor.IsPositive.isTerm (positive : factor.IsPositive) (shows : factor.Shows tree) :
    tree.IsTerm := by
  cases positive with
  | number represents above =>
      cases shows
      exact .number ⟨_, _, represents, rfl⟩ above
  | var =>
      cases shows
      exact .power .var one_pos
  | power inRange above =>
      cases shows
      exact .power (.power inRange) (by omega)

theorem Factor.IsPositive.isReciprocal (positive : factor.IsPositive) :
    factor.isReciprocal = false := by
  cases positive with
  | number | var => rfl
  | power _ above => exact decide_eq_false (by omega)

theorem Factor.IsPositive.isNegative (positive : factor.IsPositive) :
    factor.isNegative = false := by
  cases positive with
  | number represents above =>
      exact Bool.eq_false_iff.mpr (mt represents.isNegative_iff.mp fun negative =>
        above.not_gt negative.2)
  | var | power => rfl

/-- Only a one is left out. -/
theorem Factor.IsPositive.isReduced (positive : factor.IsPositive) (shows : factor.Shows tree)
    (notOne : tree.isOne = false) : factor.IsReduced := by
  have isTerm := positive.isTerm shows
  cases positive with
  | number represents above =>
      cases shows
      exact ⟨Number.isNaN_eq_false_of_isExact represents.isExact, isTerm.isZero, notOne,
        isTerm.isMonomial.isMinusOne⟩
  | var => trivial
  | power _ above => exact ⟨rfl, beq_false_of_ne (by omega), beq_false_of_ne (by omega)⟩

/-- Merged factors of one key are a positive factor: exponents add up to more than one. -/
theorem Joins.isPositiveFactor (joins : Joins first second merged) (isTerm : first.IsTerm)
    (otherTerm : second.IsTerm) (same : factorKey first = factorKey second) :
    merged.IsPositiveFactor := by
  cases joins.isTerm with
  | number leaf positive =>
      obtain ⟨number, mark, represents, rfl⟩ := leaf
      exact ⟨_, .number represents positive, .number⟩
  | @power name exponent _ power positive =>
      cases power with
      | var => exact ⟨_, .var, .var⟩
      | @power _ inner middle outer inRange =>
          have power : IsPowerOf name exponent
              (.arith .pow (.var name inner) (.number (.int exponent) middle) outer) :=
            .power inRange
          have firstKey : factorKey first = .var name := joins.key.symm.trans power.factorKey
          have secondKey : factorKey second = .var name := same.symm.trans firstKey
          have total := joins.degree name
          rw [power.degree, if_pos rfl] at total
          have ⟨_, above, _⟩ := (isTerm.degree_cases name).resolve_right fun other =>
            other.1 firstKey
          have ⟨_, otherAbove, _⟩ := (otherTerm.degree_cases name).resolve_right fun other =>
            other.1 secondKey
          exact ⟨_, .power inRange (by omega), .power⟩

/-- Positive factors of one key are numbers or powers of one variable. -/
theorem Factor.IsPositive.apart {other : Factor} {left right : Expr} (positive : factor.IsPositive)
    (otherPositive : other.IsPositive) (shows : factor.Shows left) (otherShows : other.Shows right)
    (symbolic : left.isConstant = false ∨ right.isConstant = false)
    (apart : ¬ SameVariable left right) : factor.key ≠ other.key := by
  intro same
  rw [← shows.key, ← otherShows.key] at same
  rcases (positive.isTerm shows).sameKey_cases (otherPositive.isTerm otherShows) same with
    ⟨_, _, _, _, ⟨_, _, _, rfl⟩, ⟨_, _, _, rfl⟩⟩ | ⟨name, m, n, _, _, power, otherPower⟩
  · rcases symbolic with constant | constant <;> cases constant
  · exact apart ⟨name, m, n, power, otherPower⟩

end Factors

/-! ## Settled products -/

/-- A settled product of positive factors. -/
def Expr.IsSettledProduct (tree : Expr) : Prop :=
  ∃ factors, (∀ factor ∈ factors, Factor.IsPositive factor) ∧
    MonomialForm.IsSettled ⟨factors, []⟩ ∧ tree.HasNumerator factors

section Products

variable {kernel : Kernel} {allowed : Step → Prop} {factor : Factor} {factors others : List Factor}
  {tree left right : Expr} {terms : List Expr}

/-- Positive factors are upright and have no signs. -/
theorem isSettled_of_positive (positive : ∀ factor ∈ factors, factor.IsPositive)
    (reduced : ∀ factor ∈ factors, factor.IsReduced) (distinct : (factors.map Factor.key).Nodup)
    (ordered : factors.length ≤ 2 ∨ (factors.map Factor.key).Pairwise ReadBefore) :
    MonomialForm.IsSettled ⟨factors, []⟩ := by
  refine MonomialForm.isSettled_whole reduced distinct ?_ (ordered.imp_right fun inOrder => ?_)
  · exact .inr fun factor member => (positive factor member).isReciprocal
  · exact ⟨inOrder, fun factor member => (positive factor member).isNegative⟩

theorem Expr.IsPositiveFactor.isSettledProduct (isFactor : tree.IsPositiveFactor) :
    tree.IsSettledProduct := by
  obtain ⟨factor, positive, shows⟩ := isFactor
  by_cases one : tree.isOne = true
  · obtain ⟨mark, rfl⟩ : ∃ mark, tree = .number (.int 1) mark := by
      cases positive with
      | number represents _ =>
          cases shows
          rw [represents.eq_one one] at represents
          have whole : Number.Represents _ ⟨((1 : ℤ) : ℚ), 0⟩ := represents
          obtain ⟨rfl, _⟩ := whole.eq_int
          exact ⟨_, rfl⟩
      | var | power =>
          cases shows
          cases one
    refine ⟨[], List.forall_mem_nil _, ?_, .one⟩
    exact isSettled_of_positive (List.forall_mem_nil _) (List.forall_mem_nil _) .nil
      (.inl (Nat.zero_le 2))
  · have reduced := positive.isReduced shows (Bool.eq_false_iff.mpr one)
    exact ⟨[factor], List.forall_mem_singleton.mpr positive, MonomialForm.isSettled_single reduced,
      .product (.factor shows)⟩

theorem Expr.HasFactors.isMonomial (product : tree.HasFactors factors)
    (positive : ∀ factor ∈ factors, factor.IsPositive) : tree.IsMonomial := by
  induction product with
  | factor shows => exact ((positive _ List.mem_cons_self).isTerm shows).isMonomial
  | mul _ shows ih =>
      rw [List.forall_mem_append, List.forall_mem_singleton] at positive
      exact .mul (ih positive.1) (positive.2.isTerm shows).isMonomial

/-! ### Collecting -/

theorem positive_mergeInvariant (kept : ∀ number, ¬ allowed (.inexact number))
    (raises : kernel.Raises allowed) :
    MergeInvariant kernel allowed .multiplicative (∀ term ∈ ·, term.IsPositiveFactor) where
  perm permuted positive term member := positive term (permuted.mem_iff.mpr member)
  merges {first second rest} positive same := by
    rw [List.forall_mem_cons, List.forall_mem_cons] at positive
    obtain ⟨⟨_, firstPositive, firstShows⟩, ⟨_, secondPositive, secondShows⟩, others⟩ := positive
    have isTerm := firstPositive.isTerm firstShows
    have otherTerm := secondPositive.isTerm secondShows
    refine (mergePair_joins kept raises isTerm otherTerm same).mono fun merged joins => ?_
    exact ⟨joins.key, List.forall_mem_cons.mpr
      ⟨joins.isPositiveFactor isTerm otherTerm same, others⟩⟩

theorem exists_forall₂ {Form : Type} {Shows : Form → Expr → Prop}
    (shown : ∀ term ∈ terms, ∃ form, Shows form term) :
    ∃ forms, List.Forall₂ Shows forms terms := by
  induction terms with
  | nil => exact ⟨[], .nil⟩
  | cons term terms ih =>
      rw [List.forall_mem_cons] at shown
      obtain ⟨form, shows⟩ := shown.1
      obtain ⟨forms, rest⟩ := ih shown.2
      exact ⟨form :: forms, .cons shows rest⟩

/-- Positive factors are collected into a settled product. -/
theorem collect_isSettledProduct (kept : ∀ number, ¬ allowed (.inexact number))
    (raises : kernel.Raises allowed) (positive : ∀ term ∈ terms, term.IsPositiveFactor) :
    (collect kernel .multiplicative ⟨terms, []⟩).Ensures allowed IsSettledProduct := by
  have isTerm {term : Expr} (isFactor : term.IsPositiveFactor) : term.IsTerm := by
    obtain ⟨_, positive, shows⟩ := isFactor
    exact positive.isTerm shows
  have settles := (positive_mergeInvariant kept raises).settle_keeps
    (fun positive term member => (isTerm (positive term member)).flipped) positive
  refine collect_product (fun term member => (isTerm (positive term member)).withoutSign)
    (List.forall_mem_nil _) settles ?_ ?_
  · rintro _ ⟨merged, mergedPositive, _, rfl⟩ term member
    have member := (sortTerms_perm .multiplicative merged).mem_iff.mp member
    exact (isTerm (mergedPositive term member)).isZero
  · rintro _ ⟨merged, mergedPositive, distinct, rfl⟩
    generalize kept : (sortTerms .multiplicative merged).filter _ = remaining
    have fewer : remaining.Sublist (sortTerms .multiplicative merged) := kept ▸ List.filter_sublist
    have inOrder := distinct.readBefore.sublist (fewer.reverse.map _)
    have distinctKeys : (remaining.reverse.map (TermKey.of .multiplicative)).Nodup :=
      List.Nodup.sublist (fewer.reverse.map _) (distinct.sorted.perm (List.reverse_perm _))
    obtain ⟨factors, shown⟩ : ∃ factors, List.Forall₂ (fun (factor : Factor) term =>
        (factor.IsPositive ∧ factor.IsReduced) ∧ factor.Shows term) factors remaining.reverse := by
      refine exists_forall₂ fun term member => ?_
      have member := List.mem_reverse.mp member
      have sorted := (sortTerms_perm .multiplicative merged).mem_iff.mp (fewer.subset member)
      obtain ⟨factor, positive, shows⟩ := mergedPositive term sorted
      rw [← kept, List.mem_filter] at member
      have notOne : term.isOne = false := (Bool.not_eq_true' _).mp member.2
      exact ⟨factor, ⟨positive, positive.isReduced shows notOne⟩, shows⟩
    rw [List.forall₂_and_left] at shown
    obtain ⟨holds, shown⟩ := shown
    have keys : remaining.reverse.map (TermKey.of .multiplicative) = factors.map Factor.key :=
      map_eq_of_forall₂ (fun shows => shows.key) shown
    rw [keys] at inOrder distinctKeys
    have settled : MonomialForm.IsSettled ⟨factors, []⟩ :=
      isSettled_of_positive (fun factor member => (holds factor member).1)
        (fun factor member => (holds factor member).2) distinctKeys (.inr inOrder)
    have folds : (foldMultiplicative kernel false ⟨remaining.reverse.reverse, [].reverse⟩).Ensures
        allowed (MonomialForm.Shows ⟨factors, []⟩) := foldMultiplicative_shows shown .nil
    rw [List.reverse_reverse] at folds
    refine folds.mono fun tree shows => ⟨factors, fun factor member => (holds factor member).1,
      settled, ?_⟩
    cases shows with
    | whole numerator => exact numerator
    | quotient _ product => exact absurd rfl product.ne_nil

/-! ### Operators -/

theorem Expr.IsSettledProduct.isMonomial (settled : tree.IsSettledProduct) : tree.IsMonomial := by
  obtain ⟨factors, positive, _, numerator⟩ := settled
  cases numerator with
  | product product => exact product.isMonomial positive
  | one => exact .factor (.number (isLeafOf_one _) one_pos)

/-- A power of a variable that is a settled product has a positive exponent. -/
theorem Expr.IsSettledProduct.exponent_pos (settled : tree.IsSettledProduct) {name : String}
    {exponent : ℤ} (power : tree.IsPowerOf name exponent) : 0 < exponent := by
  obtain ⟨factors, positive, _, numerator⟩ := settled
  cases power with
  | var => exact one_pos
  | power =>
      cases numerator with
      | product product =>
          cases product with
          | factor shows =>
              cases shows
              cases positive _ List.mem_cons_self with
              | power _ above => omega

/-- Operands that no rule joins are listed and, from three factors on, collected. -/
theorem Expr.HasFactors.mul_isSettledProduct (kept : ∀ number, ¬ allowed (.inexact number))
    (raises : kernel.Raises allowed) (leftProduct : left.HasFactors factors)
    (rightProduct : right.HasFactors others)
    (positive : ∀ factor ∈ factors ++ others, factor.IsPositive)
    (reduced : ∀ factor ∈ factors ++ others, factor.IsReduced)
    (symbolic : left.isConstant = false ∨ right.isConstant = false)
    (apart : ¬ SameVariable left right) :
    (collectOrBuild kernel .mul left right).Ensures allowed IsSettledProduct := by
  have ⟨leftPositive, rightPositive⟩ := List.forall_mem_append.mp positive
  obtain ⟨leftTerms, leftShown, leftFills⟩ := leftProduct.fillMultiplicative
    fun factor member => (leftPositive factor member).isReciprocal
  obtain ⟨rightTerms, rightShown, rightFills⟩ := rightProduct.fillMultiplicative
    fun factor member => (rightPositive factor member).isReciprocal
  have fills : fillOperands .multiplicative .mul left right .empty =
      pure ⟨leftTerms ++ rightTerms, []⟩ := by
    rw [fillOperands, fill, leftFills]
    exact rightFills _
  by_cases enough :
      Chain.multiplicative.shouldCollect (leftTerms ++ rightTerms).length
        ([] : List Expr).length = true
  · refine collectOrBuild_collects _ rfl fills enough (collect_isSettledProduct kept raises ?_)
    exact forall_of_forall₂ (List.rel_append leftShown rightShown) positive
      fun shows positive => ⟨_, positive, shows⟩
  · refine collectOrBuild_builds _ rfl fills (Bool.eq_false_iff.mpr enough) fun mark => ?_
    have few : (leftTerms ++ rightTerms).length ≤ 2 := by
      simpa [Chain.shouldCollect] using enough
    rw [List.length_append, ← leftShown.length_eq, ← rightShown.length_eq] at few
    have leftCount := List.length_pos_iff.mpr leftProduct.ne_nil
    have rightCount := List.length_pos_iff.mpr rightProduct.ne_nil
    obtain ⟨factor, rfl⟩ := List.length_eq_one_iff.mp (show factors.length = 1 by omega)
    obtain ⟨other, rfl⟩ := List.length_eq_one_iff.mp (show others.length = 1 by omega)
    have different : factor.key ≠ other.key :=
      (positive factor (by simp)).apart (positive other (by simp)) leftProduct.shows
        rightProduct.shows symbolic apart
    refine ⟨[factor] ++ [other], positive, ?_, .product (.mul leftProduct rightProduct.shows)⟩
    exact isSettled_of_positive positive reduced (by simpa using different) (.inl (le_refl 2))

theorem applyBinary_isSettledProduct (kept : ∀ number, ¬ allowed (.inexact number))
    (raises : kernel.Raises allowed) (leftSettled : left.IsSettledProduct)
    (rightSettled : right.IsSettledProduct)
    (different : 1 < left.factorCount → 1 < right.factorCount → (left == right) = false) :
    (applyBinary kernel .mul left right).Ensures allowed IsSettledProduct := by
  have leftMonomial := leftSettled.isMonomial
  have rightMonomial := rightSettled.isMonomial
  have joinable : Joinable .mul left right := ⟨leftMonomial.isPlain, rightMonomial.isPlain,
    fun _ => leftMonomial.isMinusOne, rightMonomial.isMinusOne, fun _ => different⟩
  have one : (Expr.int 1).IsSettledProduct :=
    ⟨[], List.forall_mem_nil _, MonomialForm.isSettled_whole (List.forall_mem_nil _) .nil
      (.inl (Nat.zero_le 1)) (.inl (Nat.zero_le 2)), .one⟩
  refine joinable.applyBinary_ensures rfl ?numbers ?powers leftSettled (fun _ => rightSettled) one
    ?collects
  case numbers =>
    intro leftConstant rightConstant
    obtain ⟨p, pPositive, leftLeaf⟩ := leftMonomial.isLeafOf_of_isConstant leftConstant
    obtain ⟨q, qPositive, rightLeaf⟩ := rightMonomial.isLeafOf_of_isConstant rightConstant
    refine (combine_mul_leaves kept leftLeaf rightLeaf).mono ?_
    rintro _ ⟨number, mark, represents, rfl⟩
    have product : (Expr.number number mark).IsPositiveFactor :=
      ⟨_, .number represents (mul_pos pPositive qPositive), .number⟩
    exact product.isSettledProduct
  case powers =>
    rintro ⟨name, m, n, leftPower, rightPower⟩
    have above := leftSettled.exponent_pos leftPower
    have otherAbove := rightSettled.exponent_pos rightPower
    refine (combine_mul_powers raises leftPower rightPower).mono fun result power => ?_
    rw [IsPowerOrOne, if_neg (by omega)] at power
    have isFactor : result.IsPositiveFactor := by
      generalize total : m + n = exponent at power
      cases power with
      | var => exact ⟨_, .var, .var⟩
      | power inRange => exact ⟨_, .power inRange (by omega), .power⟩
    exact isFactor.isSettledProduct
  case collects =>
    intro symbolic leftOne rightOne apart
    obtain ⟨factors, leftPositive, leftSettled, leftNumerator⟩ := leftSettled
    obtain ⟨others, rightPositive, rightSettled, rightNumerator⟩ := rightSettled
    cases leftNumerator with
    | one => cases leftOne rfl
    | product leftProduct =>
        cases rightNumerator with
        | one => cases rightOne
        | product rightProduct =>
            have reduced : ∀ factor ∈ factors ++ others, factor.IsReduced :=
              List.forall_mem_append.mpr
                ⟨fun factor member => leftSettled.reduced factor (List.mem_append_left _ member),
                  fun factor member => rightSettled.reduced factor (List.mem_append_left _ member)⟩
            exact leftProduct.mul_isSettledProduct kept raises rightProduct
              (List.forall_mem_append.mpr ⟨leftPositive, rightPositive⟩) reduced symbolic apart

end Products

/-! ## Simplification -/

/-- Products of positive numbers, variables and their powers, where no product of several
factors is multiplied by the same monomial. -/
inductive Expr.IsPositiveProduct : Expr → Prop where
  | factor {tree : Expr} : tree.IsTerm → IsPositiveProduct tree
  | mul {left right : Expr} {mark : Mark} : IsPositiveProduct left → IsPositiveProduct right →
      (1 < left.factorCount → 1 < right.factorCount → ¬ left.SameMonomial right) →
        IsPositiveProduct (.arith .mul left right mark)

section Simplification

variable {controller : Option Controller} {fuel : Nat} {tree : Expr}

theorem Expr.IsTerm.isFactor (isTerm : tree.IsTerm) : tree.IsFactor (· ≠ 0) := by
  cases isTerm with
  | number leaf positive => exact .number leaf positive
  | power power positive => exact .power power positive.ne'

theorem Expr.IsPositiveProduct.isMonomial (product : tree.IsPositiveProduct) :
    tree.IsMonomial := by
  induction product with
  | factor isTerm => exact isTerm.isMonomial
  | mul _ _ _ leftIH rightIH => exact .mul leftIH rightIH

/-- A first power is the variable itself. -/
theorem Expr.IsTerm.evaluateTo_isPositiveFactor (isTerm : tree.IsTerm)
    (enough : tree.size ≤ fuel) :
    (evaluateTo controller fuel tree).Finishes (·.staysInRange = true) .empty
      IsPositiveFactor := by
  cases isTerm with
  | number leaf positive =>
      obtain ⟨number, mark, represents, rfl⟩ := leaf
      exact evaluateTo_leaf rfl enough ⟨_, .number represents positive, .number⟩
  | @power name exponent _ power positive =>
      cases power with
      | var => exact evaluateTo_leaf rfl enough ⟨_, .var, .var⟩
      | power inRange =>
          refine (evaluateTo_pow_var enough).mono fun result shows => ?_
          by_cases one : exponent = 1
          · subst one
            obtain ⟨mark, rfl⟩ := shows
            exact ⟨_, .var, .var⟩
          · rw [PowerForm.ofExponent_int positive.ne' one] at shows
            obtain ⟨_, inner, middle, outer, rfl⟩ := shows
            exact ⟨_, .power inRange (by omega), .power⟩

/-- A product of positive factors is simplified to a settled one of the same monomial. -/
theorem Expr.IsPositiveProduct.evaluateTo (product : tree.IsPositiveProduct)
    (enough : tree.size ≤ fuel) :
    (evaluateTo controller fuel tree).Finishes (·.staysInRange = true) .empty fun result =>
      tree.IsReducedTo result ∧ result.IsSettledProduct := by
  induction product generalizing fuel with
  | factor isTerm =>
      refine (isTerm.isFactor.evaluateTo enough).and ?_
      exact (isTerm.evaluateTo_isPositiveFactor enough).mono fun _ => (·.isSettledProduct)
  | @mul left right mark leftProduct rightProduct different leftIH rightIH =>
      obtain ⟨fuel, rfl⟩ := fuel_eq_succ enough
      rw [size_arith] at enough
      have kept : ∀ number, ¬ (Step.inexact number).staysInRange = true :=
        fun _ => Bool.false_ne_true
      have leftMonomial := leftProduct.isMonomial
      have rightMonomial := rightProduct.isMonomial
      refine .ofTraced₂ (leftIH (by omega)) (rightIH (by omega)) ?_
      rintro first second ⟨leftReduced, leftSettled⟩ ⟨rightReduced, rightSettled⟩
      have collects : (arithmetic .mul first second).Ensures (·.staysInRange = true)
          IsSettledProduct := by
        obtain ⟨depth, engine⟩ := arithmetic_eq_ofDepth .mul first second
        rw [engine]
        exact applyBinary_isSettledProduct kept (Kernel.ofDepth_raises kept (depth + 254))
          leftSettled rightSettled
          (leftReduced.beq_eq_false leftMonomial rightMonomial rightReduced different)
      exact (arithmetic_isReducedTo rfl leftMonomial rightMonomial leftReduced rightReduced
        fun _ => different).and collects

end Simplification

end SymbolicAlgebra
