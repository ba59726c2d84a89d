import SymbolicAlgebra.Proofs.SignMovement

/-!
# Signed monomials

A monomial with signs is simplified to one with the same coefficient and degrees whose
factors are collected, up to a sign in front.  Two things are left out, since a product of
several factors is then not taken apart: a product that is multiplied by itself or by its
negation, and a product with a sign in front of it that is multiplied by a number from the
right.  Where there is no sign, the second of these does no harm.

With what holds without signs, where powers may be negative as well, this gives the
simplified form of both kinds of monomials.
-/

namespace SymbolicAlgebra

open SymbolicAlgebra.Expr

/-! ## Monomials up to a sign -/

/-- Two monomials that differ in the sign at most. -/
structure Expr.SameUpToSign (left right : Expr) : Prop where
  coefficient : |left.coefficient| = |right.coefficient|
  degree : ∀ name, left.degree name = right.degree name

/-- Products, quotients and negations of nonzero numbers and positive powers of variables.
No product of several factors is multiplied by the same monomial or its negation, and none
with a sign in it is multiplied by a constant from the right. -/
inductive Expr.IsUnsquaredUpToSign : Expr → Prop where
  | factor {tree : Expr} : tree.IsSignedFactor True → IsUnsquaredUpToSign tree
  | neg {operand : Expr} {mark : Mark} : IsUnsquaredUpToSign operand →
      IsUnsquaredUpToSign (.unary .neg operand mark)
  | mul {left right : Expr} {mark : Mark} : IsUnsquaredUpToSign left →
      IsUnsquaredUpToSign right →
      (1 < left.factorCount → 1 < right.factorCount → ¬ left.SameUpToSign right) →
      ((∀ name, right.degree name = 0) → left.factorCount ≤ 1 ∨
        (∀ name, left.exponents name = []) ∨ left.IsMonomial) →
        IsUnsquaredUpToSign (.arith .mul left right mark)
  | div {left right : Expr} {mark : Mark} : IsUnsquaredUpToSign left →
      IsUnsquaredUpToSign right → IsUnsquaredUpToSign (.arith .div left right mark)

/-- What a signed monomial is simplified to: the same monomial, arranged up to a sign. -/
structure Expr.IsArrangedFrom (tree result : Expr) : Prop where
  upToSign : result.IsArrangedUpToSign
  same : result.SameMonomial tree
  isFactor : tree.factorCount ≤ 1 → result.IsSignedFactor True
  isLeaf : (∀ name, tree.exponents name = []) → ∃ value, value ≠ 0 ∧ result.IsLeafOf ⟨value, 0⟩

section Simplification

variable {controller : Option Controller} {fuel : Nat} {tree left right first second : Expr}
  {signs : Prop} {mark : Mark} {op : ArithOp}

theorem Expr.IsSignedFactor.isSignedMonomial (factor : tree.IsSignedFactor signs) :
    tree.IsSignedMonomial := by
  cases factor with
  | number leaf nonzero _ => exact .number leaf nonzero
  | power power positive => exact .power power positive.ne'
  | negated power positive _ => exact .neg (.power power positive.ne')

theorem Expr.IsSignedProduct.isSignedMonomial (product : tree.IsSignedProduct signs) :
    tree.IsSignedMonomial := by
  induction product with
  | factor factor => exact factor.isSignedMonomial
  | mul _ _ isTerm _ ih => exact .mul ih isTerm.isMonomial.isSigned

theorem Expr.IsArranged.isSignedMonomial (arranged : tree.IsArranged signs) :
    tree.IsSignedMonomial := by
  cases arranged.isQuotient with
  | product product => exact product.isSignedMonomial
  | quotient top bottom _ => exact .div top.isSignedMonomial bottom.isSignedMonomial
  | @behind op _ _ _ _ family factor _ leaf negative _ _ =>
      cases op with
      | mul => exact .mul factor.isSignedMonomial (.number leaf negative.ne)
      | div => exact .div factor.isSignedMonomial (.number leaf negative.ne)
      | add | sub | pow => cases family

theorem Expr.IsArrangedUpToSign.isSignedMonomial (upToSign : tree.IsArrangedUpToSign) :
    tree.IsSignedMonomial := by
  cases upToSign with
  | plain arranged _ => exact arranged.isSignedMonomial
  | negated arranged _ _ => exact .neg arranged.isSignedMonomial

theorem Expr.IsArrangedUpToSign.collected (upToSign : tree.IsArrangedUpToSign) (name : String) :
    Collected (tree.exponents name) := by
  cases upToSign with
  | plain arranged _ => exact arranged.collected name
  | negated arranged _ _ => exact arranged.collected name

theorem Expr.SameMonomial.upToSign (same : left.SameMonomial right) : left.SameUpToSign right :=
  ⟨congrArg abs same.coefficient, same.degree⟩

theorem Expr.SameUpToSign.symm (same : left.SameUpToSign right) : right.SameUpToSign left :=
  ⟨same.coefficient.symm, fun name => (same.degree name).symm⟩

theorem Expr.SameUpToSign.trans (same : tree.SameUpToSign left) (next : left.SameUpToSign right) :
    tree.SameUpToSign right :=
  ⟨same.coefficient.trans next.coefficient, fun name => (same.degree name).trans (next.degree name)⟩

theorem unsigned_sameUpToSign (tree : Expr) : tree.unsigned.SameUpToSign tree := by
  unfold unsigned
  split
  · exact ⟨by rw [coefficient_neg, abs_neg], fun _ => rfl⟩
  · exact ⟨rfl, fun _ => rfl⟩

/-- Without signs it is a monomial of positive factors as before. -/
theorem Expr.IsUnsquaredUpToSign.isUnsquared (unsquared : tree.IsUnsquaredUpToSign)
    (monomial : tree.IsMonomial) : tree.IsUnsquared := by
  induction unsquared with
  | factor factor => exact .factor (monomial.isFactor factor.factorCount.le)
  | neg => cases monomial.isNegation
  | mul _ _ different _ leftIH rightIH =>
      cases monomial with
      | factor factor => exact absurd factor.factorCount (one_lt_factorCount_arith rfl).ne'
      | mul leftMonomial rightMonomial =>
          refine .mul (leftIH leftMonomial) (rightIH rightMonomial) fun several otherSeveral => ?_
          exact fun same => different several otherSeveral same.upToSign
  | div _ _ leftIH rightIH =>
      cases monomial with
      | factor factor => exact absurd factor.factorCount (one_lt_factorCount_arith rfl).ne'
      | div leftMonomial rightMonomial =>
          exact .div (leftIH leftMonomial) (rightIH rightMonomial)

theorem Expr.IsSignedMonomial.unsigned (monomial : tree.IsSignedMonomial) :
    tree.unsigned.IsSignedMonomial := by
  cases sign : tree.isNegation with
  | false => rwa [unsigned_of_unnegated sign]
  | true =>
      cases monomial with
      | neg operand => exact operand
      | number leaf _ =>
          rw [leaf.isNegation] at sign
          cases sign
      | power power _ =>
          rw [power.isNegation] at sign
          cases sign
      | mul | div => cases sign

/-! ### Operators on results -/

theorem Expr.IsArrangedFrom.one_lt_factorCount (arranged : tree.IsArrangedFrom first)
    (several : 1 < first.factorCount) : 1 < tree.factorCount := by
  by_contra single
  exact absurd (arranged.isFactor (not_lt.mp single)).factorCount several.ne'

/-- Monomials that differ in more than the sign are simplified to trees that do. -/
theorem Expr.IsArrangedFrom.different (leftArranged : left.IsArrangedFrom first)
    (rightArranged : right.IsArrangedFrom second)
    (different : 1 < left.factorCount → 1 < right.factorCount → ¬ left.SameUpToSign right)
    (several : 1 < first.factorCount) (otherSeveral : 1 < second.factorCount) :
    (first.unsigned == second.unsigned) = false := by
  refine Bool.eq_false_iff.mpr fun equal => different ?_ ?_ ?_
  · exact leftArranged.one_lt_factorCount several
  · exact rightArranged.one_lt_factorCount otherSeveral
  · have firstMonomial := leftArranged.upToSign.isSignedMonomial
    have secondMonomial := rightArranged.upToSign.isSignedMonomial
    have bare : first.unsigned.SameUpToSign second.unsigned :=
      (firstMonomial.unsigned.same_of_beq secondMonomial.unsigned equal).upToSign
    have results : first.SameUpToSign second :=
      (unsigned_sameUpToSign first).symm.trans (bare.trans (unsigned_sameUpToSign second))
    exact leftArranged.same.upToSign.symm.trans (results.trans rightArranged.same.upToSign)

/-- A sign in front of several factors is not multiplied by a number from the right. -/
theorem Expr.IsArrangedFrom.alone (leftArranged : left.IsArrangedFrom first)
    (rightArranged : right.IsArrangedFrom second)
    (unsigned : left.IsMonomial → first.IsMonomial)
    (alone : (∀ name, right.degree name = 0) → left.factorCount ≤ 1 ∨
      (∀ name, left.exponents name = []) ∨ left.IsMonomial)
    (sign : first.isNegation = true) (number : second.isNumber = true) :
    first.factorCount ≤ 1 := by
  obtain ⟨_, _, rfl⟩ := eq_number_of_isNumber number
  obtain ⟨value, nonzero, leaf⟩ := rightArranged.upToSign.isLeafOf_of_isConstant rfl
  have constant (name : String) : right.degree name = 0 :=
    (rightArranged.same.degree name).symm.trans leaf.degree
  rcases alone constant with single | absent | monomial
  · exact (leftArranged.isFactor single).factorCount.le
  · obtain ⟨_, _, leaf⟩ := leftArranged.isLeaf absent
    rw [leaf.isNegation] at sign
    cases sign
  · rw [(unsigned monomial).isNegation] at sign
    cases sign

theorem Expr.IsArrangedFrom.arithmetic (leftArranged : left.IsArrangedFrom first)
    (rightArranged : right.IsArrangedFrom second) (operands : SignedOperands op first second)
    (family : Chain.of? op = some .multiplicative) :
    (Expr.arithmetic op first second).Ensures (·.staysInRange = true)
      (IsArrangedFrom (.arith op left right mark)) := by
  have kept : ∀ number, ¬ (Step.inexact number).staysInRange = true := fun _ => Bool.false_ne_true
  have source : (Expr.arith op first second).IsSignedMonomial := by
    have firstMonomial := leftArranged.upToSign.isSignedMonomial
    have secondMonomial := rightArranged.upToSign.isSignedMonomial
    cases op with
    | mul => exact .mul firstMonomial secondMonomial
    | div => exact .div firstMonomial secondMonomial
    | add | sub | pow => cases family
  have numbers (absent : ∀ name, (Expr.arith op left right mark).exponents name = []) :
      (Expr.arithmetic op first second).Ensures (·.staysInRange = true) fun result =>
        ∃ value, value ≠ 0 ∧ result.IsLeafOf ⟨value, 0⟩ := by
    have parts (name : String) : left.exponents name = [] ∧ right.exponents name = [] := by
      have whole := absent name
      cases op with
      | mul => exact List.append_eq_nil_iff.mp whole
      | div => exact (List.append_eq_nil_iff.mp whole).imp_right List.map_eq_nil_iff.mp
      | add | sub | pow => cases family
    obtain ⟨p, leftNonzero, leftLeaf⟩ := leftArranged.isLeaf fun name => (parts name).1
    obtain ⟨q, rightNonzero, rightLeaf⟩ := rightArranged.isLeaf fun name => (parts name).2
    obtain ⟨depth, engine⟩ := arithmetic_eq_ofDepth op first second
    rw [engine]
    refine Rule.Succeeds.run_match
      (combine_numbers_leaf kept family leftLeaf rightLeaf leftNonzero rightNonzero) ?_
    rintro result ⟨value, nonzero, _, leaf⟩
    exact .pure ⟨value, nonzero, leaf⟩
  have same := arithmetic_same source
  refine (((operands.arithmetic_upToSign kept family).and same).and (.assuming numbers)).mono ?_
  rintro result ⟨⟨upToSign, same⟩, isLeaf⟩
  refine ⟨upToSign, ?_, ?_, isLeaf⟩
  · refine (same upToSign.isSignedMonomial).trans ?_
    exact .arith family leftArranged.same rightArranged.same
  · exact fun single => absurd single (one_lt_factorCount_arith family).not_ge

theorem Expr.IsArrangedFrom.neg (arranged : tree.IsArrangedFrom first) :
    first.neg.Ensures (·.staysInRange = true) (IsArrangedFrom (.unary .neg tree mark)) := by
  have kept : ∀ number, ¬ (Step.inexact number).staysInRange = true := fun _ => Bool.false_ne_true
  obtain ⟨depth, engine⟩ := neg_eq_ofDepth first
  have raises : (Kernel.ofDepth (depth + 256)).Raises (·.staysInRange = true) :=
    Kernel.ofDepth_raises kept (depth + 255)
  have same := neg_same arranged.upToSign.isSignedMonomial
  have factor (single : tree.factorCount ≤ 1) :
      first.neg.Ensures (·.staysInRange = true) (IsSignedFactor True) := by
    rw [engine]
    exact ((arranged.isFactor single).negate raises trivial).mono fun _ => (·.isFactor)
  have number (absent : ∀ name, tree.exponents name = []) :
      first.neg.Ensures (·.staysInRange = true) fun result =>
        ∃ value, value ≠ 0 ∧ result.IsLeafOf ⟨value, 0⟩ := by
    obtain ⟨value, nonzero, leaf⟩ := arranged.isLeaf absent
    rw [engine]
    refine (raises.computes.negate_opposite leaf).mono fun result negative => ?_
    exact ⟨-value, neg_ne_zero.mpr nonzero, negative⟩
  have whole := ((arranged.upToSign.neg kept).and same).and
    ((Traced.Ensures.assuming factor).and (.assuming number))
  refine whole.mono ?_
  rintro result ⟨⟨upToSign, same⟩, isFactor, isLeaf⟩
  refine ⟨upToSign, (same upToSign.isSignedMonomial).trans ?_, isFactor, isLeaf⟩
  exact ⟨congrArg (- ·) arranged.same.coefficient, arranged.same.degree⟩

/-! ### Evaluation -/

theorem Expr.IsSignedFactor.evaluateTo (factor : tree.IsSignedFactor True)
    (enough : tree.size ≤ fuel) :
    (evaluateTo controller fuel tree).Finishes (·.staysInRange = true) .empty
      (IsArrangedFrom tree) := by
  have ofPower {tree : Expr} {name : String} {exponent : ℤ} {fuel : Nat}
      (power : tree.IsPowerOf name exponent) (positive : 0 < exponent)
      (enough : tree.size ≤ fuel) :
      (Expr.evaluateTo controller fuel tree).Finishes (·.staysInRange = true) .empty
        (IsArrangedFrom tree) := by
    refine (power.evaluateTo positive.ne' enough).mono fun result resultPower => ?_
    have factor : result.IsSignedFactor True := .power resultPower positive
    refine ⟨factor.isArranged.upToSign, resultPower.same power, fun _ => factor, fun absent => ?_⟩
    have single := absent name
    rw [power.exponents, if_pos rfl] at single
    cases single
  have upToSign := factor.isArranged.upToSign
  cases factor with
  | number leaf nonzero admitted =>
      have arranged : tree.IsArrangedFrom tree := ⟨upToSign, ⟨rfl, fun _ => rfl⟩,
        fun _ => .number leaf nonzero admitted, fun _ => ⟨_, nonzero, leaf⟩⟩
      obtain ⟨_, _, _, rfl⟩ := leaf
      exact evaluateTo_leaf rfl enough arranged
  | power power positive => exact ofPower power positive enough
  | negated power positive _ =>
      obtain ⟨fuel, rfl⟩ := fuel_eq_succ enough
      rw [size_unary] at enough
      exact .bind (ofPower power positive (by omega)) fun operand => .ofTraced (·.neg)

/-- Where there is no sign in the tree, there is none in the result. -/
theorem Expr.IsUnsquaredUpToSign.keepsUnsigned (unsquared : tree.IsUnsquaredUpToSign)
    (enough : tree.size ≤ fuel) {condition : Expr → Prop}
    (finishes : (Expr.evaluateTo controller fuel tree).Finishes (·.staysInRange = true) .empty
      condition) :
    (Expr.evaluateTo controller fuel tree).Finishes (·.staysInRange = true) .empty fun result =>
      condition result ∧ (tree.IsMonomial → result.IsMonomial) := by
  by_cases monomial : tree.IsMonomial
  · refine (finishes.and ((unsquared.isUnsquared monomial).evaluateTo enough)).mono ?_
    exact fun result holds => ⟨holds.1, fun _ => holds.2.isCollected.isMonomial⟩
  · exact finishes.mono fun result holds => ⟨holds, fun impossible => absurd impossible monomial⟩

/-- The factors of a signed monomial are collected along the evaluation of the tree. -/
theorem Expr.IsUnsquaredUpToSign.evaluateTo (unsquared : tree.IsUnsquaredUpToSign)
    (enough : tree.size ≤ fuel) :
    (evaluateTo controller fuel tree).Finishes (·.staysInRange = true) .empty
      (IsArrangedFrom tree) := by
  induction unsquared generalizing fuel with
  | factor factor => exact factor.evaluateTo enough
  | neg _ ih =>
      obtain ⟨fuel, rfl⟩ := fuel_eq_succ enough
      rw [size_unary] at enough
      exact .bind (ih (by omega)) fun operand => .ofTraced (·.neg)
  | @mul left right mark leftUnsquared _ different alone leftIH rightIH =>
      obtain ⟨fuel, rfl⟩ := fuel_eq_succ enough
      rw [size_arith] at enough
      have leftEnough : left.size ≤ fuel := by omega
      have leftFinishes := leftUnsquared.keepsUnsigned leftEnough (leftIH leftEnough)
      refine .ofTraced₂ leftFinishes (rightIH (by omega)) ?_
      rintro first second ⟨leftArranged, unsigned⟩ rightArranged
      have operands : SignedOperands .mul first second :=
        ⟨leftArranged.upToSign, rightArranged.upToSign,
          fun _ => leftArranged.different rightArranged different,
          fun _ => leftArranged.alone rightArranged unsigned alone⟩
      exact leftArranged.arithmetic rightArranged operands rfl
  | div _ _ leftIH rightIH =>
      obtain ⟨fuel, rfl⟩ := fuel_eq_succ enough
      rw [size_arith] at enough
      refine .ofTraced₂ (leftIH (by omega)) (rightIH (by omega)) ?_
      intro first second leftArranged rightArranged
      have operands : SignedOperands .div first second :=
        ⟨leftArranged.upToSign, rightArranged.upToSign, nofun, nofun⟩
      exact leftArranged.arithmetic rightArranged operands rfl

theorem Expr.IsSignedMonomial.count_occurrences (monomial : tree.IsSignedMonomial) (name : String) :
    tree.occurrences.count name = (tree.exponents name).length := by
  induction monomial with
  | number leaf _ =>
      obtain ⟨number, mark, _, rfl⟩ := leaf
      rfl
  | @power other exponent tree power _ =>
      have single : tree.occurrences = [other] := by
        cases power with
        | var => rfl
        | power => rw [occurrences_arith, occurrences_var, occurrences_number, List.append_nil]
      rw [single, power.exponents, List.count_singleton]
      split <;> simp_all
  | neg _ ih => rwa [occurrences_unary]
  | mul _ _ leftIH rightIH =>
      rw [occurrences_arith, List.count_append, leftIH, rightIH, Expr.exponents, List.length_append]
  | div _ _ leftIH rightIH =>
      rw [occurrences_arith, List.count_append, leftIH, rightIH, Expr.exponents, List.length_append,
        List.length_map]

end Simplification

theorem Collected.length_le_one {exponents : List ℤ} (collected : Collected exponents)
    (nonneg : 0 ≤ exponents.sum) : exponents.length ≤ 1 := by
  cases collected with
  | absent => exact Nat.zero_le 1
  | once => exact le_refl 1
  | both _ smaller =>
      rw [List.sum_cons, List.sum_singleton] at nonneg
      omega

theorem Collected.of_negative {exponents : List ℤ} (collected : Collected exponents)
    (negative : exponents.sum < 0) :
    exponents = [exponents.sum] ∨ ∃ above > 0, exponents = [above, exponents.sum - above] := by
  cases collected with
  | absent => cases negative
  | once => exact .inl (by rw [List.sum_singleton])
  | @both above below positive _ => exact .inr ⟨above, positive, by simp⟩

/-- What a monomial is simplified to, with or without signs. -/
structure Expr.IsCollectedFrom (tree result : Expr) : Prop where
  isSigned : result.IsSignedMonomial
  unsigned : tree.IsMonomial → result.IsMonomial
  same : result.SameMonomial tree
  collected : ∀ name, Collected (result.exponents name)

theorem Expr.evaluateTo_isCollectedFrom {tree : Expr} {fuel : Nat}
    {controller : Option Controller} (unsquared : tree.IsUnsquared ∨ tree.IsUnsquaredUpToSign)
    (enough : tree.size ≤ fuel) :
    (evaluateTo controller fuel tree).Finishes (·.staysInRange = true) .empty
      (IsCollectedFrom tree) := by
  rcases unsquared with unsquared | unsquared
  · refine (unsquared.evaluateTo enough).mono fun result reduced => ?_
    have monomial := reduced.isCollected.isMonomial
    exact ⟨monomial.isSigned, fun _ => monomial, reduced.same, reduced.isCollected.collected⟩
  · refine (unsquared.keepsUnsigned enough (unsquared.evaluateTo enough)).mono ?_
    rintro result ⟨arranged, unsigned⟩
    exact ⟨arranged.upToSign.isSignedMonomial, unsigned, arranged.same, arranged.upToSign.collected⟩

/-- A tree of products and quotients of positive numbers, variables and powers of variables
in which no product is multiplied by itself, or one that has signs and no negative powers,
is simplified to a monomial of the same coefficient and degrees, with signs only if there
were any.  A variable whose degree is not negative occurs in it once at most.  One of
negative degree occurs once, or twice with a smaller exponent above the fraction bar than
below: such a pair is not cancelled. -/
theorem simplified_monomials_are_collected (tree : Expr)
    (unsquared : tree.IsUnsquared ∨ tree.IsUnsquaredUpToSign) (fuel : Nat)
    (enough : tree.size ≤ fuel) (controller : Option Controller) (random : RandomSource)
    (marks : Nat) :
    ∃ result state, simplify? fuel controller random marks tree = some (result, state) ∧
      ((∀ step ∈ state.trace, step.staysInRange = true) →
        result.IsSignedMonomial ∧ (tree.IsMonomial → result.IsMonomial) ∧
          result.coefficient = tree.coefficient ∧
          ∀ name, result.degree name = tree.degree name ∧
            (0 ≤ tree.degree name → result.occurrences.count name ≤ 1) ∧
            (tree.degree name < 0 → result.exponents name = [tree.degree name] ∨
              ∃ above > 0, result.exponents name = [above, tree.degree name - above])) := by
  have finishes : (evaluateTo controller fuel tree).Finishes (·.staysInRange = true) .empty
      (IsCollectedFrom tree) := evaluateTo_isCollectedFrom unsquared enough
  obtain ⟨result, state, run, holds⟩ := finishes.simplify? random marks
  refine ⟨result, state, run, fun inRange => ?_⟩
  have collected := holds inRange
  refine ⟨collected.isSigned, collected.unsigned, collected.same.coefficient, fun name => ?_⟩
  refine ⟨collected.same.degree name, ?_, ?_⟩
  · rw [← collected.same.degree name, collected.isSigned.count_occurrences]
    exact (collected.collected name).length_le_one
  · rw [← collected.same.degree name]
    exact (collected.collected name).of_negative

/-- The factors of `((2 * x) * y / (x * 4)) * (z ^ -2 * y)` are collected: `x` is gone, `y`
occurs once and `z` below the bar.  In `-(2 * x) * y / (x * -4)` the signs cancel as well. -/
theorem quotient_of_products_is_collected :
    let tree : Expr := .arith .mul
      (.arith .div (.arith .mul (.arith .mul (.int 2) (.var "x")) (.var "y"))
        (.arith .mul (.var "x") (.int 4)))
      (.arith .mul (.arith .pow (.var "z") (.int (-2))) (.var "y"))
    let signed : Expr := .arith .div
      (.arith .mul (.unary .neg (.arith .mul (.int 2) (.var "x"))) (.var "y"))
      (.arith .mul (.var "x") (.int (-4)))
    (∃ result state, simplify? 15 none (.ofSeed 1) 0 tree = some (result, state) ∧
      result.IsMonomial ∧ result.degree "x" = 0 ∧ result.degree "y" = 2 ∧
        result.degree "z" = -2 ∧ result.occurrences.count "x" ≤ 1 ∧
          result.occurrences.count "y" ≤ 1) ∧
      ∃ result state, simplify? 15 none (.ofSeed 1) 0 signed = some (result, state) ∧
        result.IsSignedMonomial ∧ result.coefficient = 1 / 2 ∧ result.degree "x" = 0 ∧
          result.degree "y" = 1 ∧ result.occurrences.count "x" ≤ 1 ∧
            result.occurrences.count "y" ≤ 1 := by
  intro tree signed
  have leaf (whole : ℤ) (inRange : InRange whole) : (Expr.int whole).IsLeafOf ⟨whole, 0⟩ :=
    ⟨.int whole, _, ⟨inRange, rfl⟩, rfl⟩
  constructor
  · have number (whole : ℤ) (inRange : InRange whole) (positive : 0 < whole) :
        (Expr.int whole).IsUnsquared :=
      .factor (.number (leaf whole inRange) (Int.cast_pos.mpr positive))
    have var (name : String) : (Expr.var name).IsUnsquared := .factor (.power .var one_ne_zero)
    have times {left right : Expr} (leftUnsquared : left.IsUnsquared)
        (rightUnsquared : right.IsUnsquared)
        (single : left.factorCount = 1 ∨ right.factorCount = 1) :
        (Expr.arith .mul left right).IsUnsquared :=
      .mul leftUnsquared rightUnsquared fun _ _ => by omega
    have reciprocal : IsPowerOf "z" (-2) (.arith .pow (.var "z") (.int (-2))) := .power (by decide)
    have numerator := times (times (number 2 (by decide) two_pos) (var "x") (.inl rfl)) (var "y")
      (.inr rfl)
    have denominator := times (var "x") (number 4 (by decide) four_pos) (.inl rfl)
    have last := times (.factor (.power reciprocal (by decide))) (var "y") (.inl rfl)
    have unsquared : tree.IsUnsquared := by
      refine .mul (.div numerator denominator) last fun _ _ same => ?_
      exact absurd (same.degree "z") (by decide)
    have inRange : (simplify? 15 none (.ofSeed 1) 0 tree).all
        (·.2.trace.all Step.staysInRange) = true := by decide +kernel
    obtain ⟨result, state, run, holds⟩ :=
      simplified_monomials_are_collected tree (.inl unsquared) 15 (by decide) none (.ofSeed 1) 0
    rw [run, Option.all_some, List.all_eq_true] at inRange
    obtain ⟨_, monomial, _, collected⟩ := holds inRange
    have ⟨x, xOnce, _⟩ := collected "x"
    have ⟨y, yOnce, _⟩ := collected "y"
    have ⟨z, _, _⟩ := collected "z"
    exact ⟨result, state, run, monomial unsquared.isMonomial, x.trans (by decide),
      y.trans (by decide), z.trans (by decide), xOnce (by decide), yOnce (by decide)⟩
  · have number (whole : ℤ) (inRange : InRange whole) (nonzero : whole ≠ 0) :
        (Expr.int whole).IsUnsquaredUpToSign :=
      .factor (.number (leaf whole inRange) (Int.cast_ne_zero.mpr nonzero) fun _ => trivial)
    have var (name : String) : (Expr.var name).IsUnsquaredUpToSign := .factor (.power .var one_pos)
    have doubled : (Expr.arith .mul (.int 2) (.var "x")).IsUnsquaredUpToSign :=
      .mul (number 2 (by decide) two_ne_zero) (var "x") nofun fun _ => .inl le_rfl
    have numerator : (Expr.arith .mul (.unary .neg (.arith .mul (.int 2) (.var "x")))
        (.var "y")).IsUnsquaredUpToSign := by
      refine .mul (.neg doubled) (var "y") (fun _ => nofun) fun constant => ?_
      exact absurd (constant "y") (by decide)
    have denominator : (Expr.arith .mul (.var "x") (.int (-4))).IsUnsquaredUpToSign :=
      .mul (var "x") (number (-4) (by decide) (by decide)) nofun fun _ => .inl le_rfl
    have unsquared : signed.IsUnsquaredUpToSign := .div numerator denominator
    have inRange : (simplify? 15 none (.ofSeed 1) 0 signed).all
        (·.2.trace.all Step.staysInRange) = true := by decide +kernel
    obtain ⟨result, state, run, holds⟩ :=
      simplified_monomials_are_collected signed (.inr unsquared) 15 (by decide) none (.ofSeed 1) 0
    rw [run, Option.all_some, List.all_eq_true] at inRange
    obtain ⟨monomial, _, coefficient, collected⟩ := holds inRange
    have ⟨x, xOnce, _⟩ := collected "x"
    have ⟨y, yOnce, _⟩ := collected "y"
    have half : signed.coefficient = 1 / 2 := by decide +kernel
    exact ⟨result, state, run, monomial, coefficient.trans half, x.trans (by decide),
      y.trans (by decide), xOnce (by decide), yOnce (by decide)⟩

/-- Monomials in which a variable occurs twice.  In `y * x / x ^ 2` it stays on both sides
of the bar, a negated product is not taken apart, a negated negative power is not put below
the bar before factors are joined, and the square of a product is not taken apart either. -/
theorem variable_left_twice :
    let x : Expr := .var "x"
    let y : Expr := .var "y"
    let reciprocal : Expr := .arith .pow x (.int (-1))
    let occurrencesOfX (tree : Expr) : Option Nat :=
      (simplify? 9 none (.ofSeed 1) 0 tree).map (·.1.occurrences.count "x")
    let quotient : Expr := .arith .div (.arith .mul y x) (.arith .pow x (.int 2))
    let negated : Expr := .arith .mul (.arith .mul (.unary .neg (.arith .mul x y)) (.int 3)) x
    let negatedPower : Expr :=
      .arith .mul (.arith .mul (.unary .neg reciprocal) (.int 2)) reciprocal
    let squared : Expr := .arith .mul (.arith .mul (.arith .mul x y) (.arith .mul x y)) x
    occurrencesOfX quotient = some 2 ∧ occurrencesOfX negated = some 2 ∧
      occurrencesOfX negatedPower = some 2 ∧ occurrencesOfX squared = some 2 ∧
      (simplify? 9 none (.ofSeed 1) 0 quotient).map (·.1.exponents "x") = some [1, -2] := by
  decide +kernel

end SymbolicAlgebra
