import SymbolicAlgebra.Proofs.PowerTowers

/-!
# Monomials

Products and quotients of numbers, variables and whole powers of variables, with or
without signs.  The degree of a variable is the sum of its exponents, where those below a
fraction bar count as negative.  The degrees and the coefficient can be told from the
values of the tree, so whatever keeps the values keeps them.

Two factors of one variable are joined by adding or subtracting their exponents.  Only a
quotient with a smaller exponent above the bar does not become one factor again.
-/

namespace SymbolicAlgebra

namespace Expr

/-- The exponents of a variable from left to right, those below a fraction bar with the
opposite sign. -/
def exponents (name : String) : Expr → List ℤ
  | .var other _ => if other = name then [1] else []
  | .arith .mul left right _ => left.exponents name ++ right.exponents name
  | .arith .div left right _ => left.exponents name ++ (right.exponents name).map (- ·)
  | .arith .pow base (.number (.int exponent) _) _ => (base.exponents name).map (exponent * ·)
  | .unary .neg operand _ => operand.exponents name
  | _ => []

/-- The net exponent of a variable. -/
def degree (name : String) (tree : Expr) : ℤ := (tree.exponents name).sum

/-- The value of the numbers in a monomial. -/
def coefficient : Expr → ℚ
  | .number value _ => value.toRatio?.getD 1
  | .arith .mul left right _ => left.coefficient * right.coefficient
  | .arith .div left right _ => left.coefficient / right.coefficient
  | .unary .neg operand _ => -operand.coefficient
  | _ => 1

/-- Two monomials with one coefficient and the same degrees. -/
structure SameMonomial (left right : Expr) : Prop where
  coefficient : left.coefficient = right.coefficient
  degree : ∀ name, left.degree name = right.degree name

/-- The variable itself or a whole power of it. -/
inductive IsPowerOf (name : String) : ℤ → Expr → Prop where
  | var {mark : Mark} : IsPowerOf name 1 (.var name mark)
  | power {exponent : ℤ} {inner middle outer : Mark} : InRange exponent →
      IsPowerOf name exponent
        (.arith .pow (.var name inner) (.number (.int exponent) middle) outer)

/-- A positive number, or a variable with an exponent that meets a condition. -/
inductive IsFactor (Admitted : ℤ → Prop) : Expr → Prop where
  | number {value : ℚ} {tree : Expr} : tree.IsLeafOf ⟨value, 0⟩ → 0 < value →
      IsFactor Admitted tree
  | power {name : String} {exponent : ℤ} {tree : Expr} : tree.IsPowerOf name exponent →
      Admitted exponent → IsFactor Admitted tree

/-- Products and quotients of factors. -/
inductive IsMonomial : Expr → Prop where
  | factor {tree : Expr} : tree.IsFactor (· ≠ 0) → IsMonomial tree
  | mul {left right : Expr} {mark : Mark} : IsMonomial left → IsMonomial right →
      IsMonomial (.arith .mul left right mark)
  | div {left right : Expr} {mark : Mark} : IsMonomial left → IsMonomial right →
      IsMonomial (.arith .div left right mark)

/-- Products, quotients and negations of nonzero numbers and powers of variables. -/
inductive IsSignedMonomial : Expr → Prop where
  | number {value : ℚ} {tree : Expr} : tree.IsLeafOf ⟨value, 0⟩ → value ≠ 0 →
      IsSignedMonomial tree
  | power {name : String} {exponent : ℤ} {tree : Expr} : tree.IsPowerOf name exponent →
      exponent ≠ 0 → IsSignedMonomial tree
  | neg {operand : Expr} {mark : Mark} : IsSignedMonomial operand →
      IsSignedMonomial (.unary .neg operand mark)
  | mul {left right : Expr} {mark : Mark} : IsSignedMonomial left → IsSignedMonomial right →
      IsSignedMonomial (.arith .mul left right mark)
  | div {left right : Expr} {mark : Mark} : IsSignedMonomial left → IsSignedMonomial right →
      IsSignedMonomial (.arith .div left right mark)

end Expr

open SymbolicAlgebra.Expr

section Degrees

variable {name other : String} {exponent : ℤ} {tree left right : Expr} {mark : Mark}
  {value : GaussianRational}

theorem Expr.IsPowerOf.exponents (power : tree.IsPowerOf other exponent) :
    tree.exponents name = if other = name then [exponent] else [] := by
  cases power with
  | var => rfl
  | @power exponent _ _ _ _ =>
      change (if other = name then [1] else []).map (exponent * ·) = _
      split
      · rw [List.map_singleton, mul_one]
      · rfl

theorem Expr.IsLeafOf.exponents (leaf : tree.IsLeafOf value) : tree.exponents name = [] := by
  obtain ⟨number, mark, _, rfl⟩ := leaf
  rfl

theorem Expr.IsLeafOf.exponents_mul (leaf : right.IsLeafOf value) :
    (Expr.arith .mul left right mark).exponents name = left.exponents name := by
  rw [Expr.exponents, leaf.exponents, List.append_nil]

theorem degree_mul :
    (Expr.arith .mul left right mark).degree name = left.degree name + right.degree name :=
  List.sum_append

theorem degree_div :
    (Expr.arith .div left right mark).degree name = left.degree name - right.degree name := by
  refine List.sum_append.trans ?_
  rw [← List.sum_neg, ← sub_eq_add_neg]
  rfl

theorem Expr.IsPowerOf.degree (power : tree.IsPowerOf other exponent) :
    tree.degree name = if other = name then exponent else 0 := by
  rw [Expr.degree, power.exponents]
  split
  · exact List.sum_singleton
  · rfl

theorem Expr.IsLeafOf.degree (leaf : tree.IsLeafOf value) : tree.degree name = 0 := by
  rw [Expr.degree, leaf.exponents, List.sum_nil]

/-- The values of variables where one is chosen and all others are one. -/
def assigning (name : String) (value : ℚ) (other : String) : Option ℚ :=
  some (if other = name then value else 1)

theorem Expr.IsPowerOf.coefficient (power : tree.IsPowerOf other exponent) :
    tree.coefficient = 1 := by
  cases power <;> rfl

theorem Expr.IsLeafOf.coefficient {value : ℚ} (leaf : tree.IsLeafOf ⟨value, 0⟩) :
    tree.coefficient = value := by
  obtain ⟨number, mark, represents, rfl⟩ := leaf
  change number.toRatio?.getD 1 = value
  rw [(Number.IsFraction.of_represents represents).1, Option.getD_some]

theorem Expr.IsLeafOf.isZero_iff {value : ℚ} (leaf : tree.IsLeafOf ⟨value, 0⟩) :
    tree.isZero = true ↔ value = 0 := by
  obtain ⟨number, mark, represents, rfl⟩ := leaf
  refine represents.isZero_iff.trans ⟨congrArg QuadraticAlgebra.re, ?_⟩
  rintro rfl
  rfl

theorem Expr.IsLeafOf.isOne_iff {value : ℚ} (leaf : tree.IsLeafOf ⟨value, 0⟩) :
    tree.isOne = true ↔ value = 1 := by
  obtain ⟨number, mark, represents, rfl⟩ := leaf
  constructor
  · exact fun one => congrArg QuadraticAlgebra.re (represents.eq_one one)
  · rintro rfl
    change number.isOne = true
    rw [represents.eq_ofComplexRatio]
    decide

theorem Expr.IsLeafOf.isMinusOne_iff {value : ℚ} (leaf : tree.IsLeafOf ⟨value, 0⟩) :
    tree.isMinusOne = true ↔ value = -1 := by
  obtain ⟨number, mark, represents, rfl⟩ := leaf
  constructor
  · intro minusOne
    simpa [QuadraticAlgebra.re_one] using
      congrArg QuadraticAlgebra.re (represents.eq_neg_one minusOne)
  · rintro rfl
    change number.isMinusOne = true
    rw [represents.eq_ofComplexRatio]
    decide

theorem coefficient_mul :
    (Expr.arith .mul left right mark).coefficient = left.coefficient * right.coefficient :=
  rfl

theorem coefficient_div :
    (Expr.arith .div left right mark).coefficient = left.coefficient / right.coefficient :=
  rfl

theorem degree_neg : (Expr.unary .neg tree mark).degree name = tree.degree name :=
  rfl

theorem coefficient_neg : (Expr.unary .neg tree mark).coefficient = -tree.coefficient :=
  rfl

theorem Expr.IsMonomial.isSigned (monomial : tree.IsMonomial) : tree.IsSignedMonomial := by
  induction monomial with
  | factor factor =>
      cases factor with
      | number leaf positive => exact .number leaf positive.ne'
      | power power nonzero => exact .power power nonzero
  | mul _ _ leftIH rightIH => exact .mul leftIH rightIH
  | div _ _ leftIH rightIH => exact .div leftIH rightIH

theorem Expr.IsSignedMonomial.coefficient_ne_zero (monomial : tree.IsSignedMonomial) :
    tree.coefficient ≠ 0 := by
  induction monomial with
  | number leaf nonzero => exact leaf.coefficient ▸ nonzero
  | power power _ => exact power.coefficient ▸ one_ne_zero
  | neg _ ih => exact neg_ne_zero.mpr ih
  | mul _ _ leftIH rightIH => exact mul_ne_zero leftIH rightIH
  | div _ _ leftIH rightIH => exact div_ne_zero leftIH rightIH

theorem Expr.IsPowerOf.means {point : ℚ} (power : tree.IsPowerOf other exponent)
    (nonzero : point ≠ 0) :
    Means (.rationals (assigning name point)) tree
      (tree.coefficient * point ^ tree.degree name) := by
  have chosen : (if other = name then point else 1) ≠ 0 := by
    split
    · exact nonzero
    · exact one_ne_zero
  have value : point ^ (if other = name then exponent else 0) =
      (if other = name then point else 1) ^ exponent := by
    split <;> simp
  rw [power.degree, power.coefficient, one_mul, value]
  cases power with
  | var =>
      rw [zpow_one]
      exact .var rfl
  | power inRange => exact .pow (.var rfl) inRange (isPower_iff.mpr ⟨.inl chosen, rfl⟩)

/-- A monomial has the value of the coefficient times a power by the degree. -/
theorem Expr.IsSignedMonomial.means (monomial : tree.IsSignedMonomial) (name : String) {point : ℚ}
    (nonzero : point ≠ 0) :
    Means (.rationals (assigning name point)) tree
      (tree.coefficient * point ^ tree.degree name) := by
  induction monomial with
  | number leaf _ =>
      rw [leaf.degree, leaf.coefficient, zpow_zero, mul_one]
      obtain ⟨number, mark, represents, rfl⟩ := leaf
      exact .number (Reading.reads_rationals_iff.mpr (.of_represents represents))
  | power power _ => exact power.means nonzero
  | neg _ ih =>
      rw [degree_neg, coefficient_neg, neg_mul]
      exact .neg ih
  | mul _ _ leftIH rightIH =>
      rw [degree_mul, zpow_add₀ nonzero, coefficient_mul, mul_mul_mul_comm]
      exact .mul leftIH rightIH
  | div _ right leftIH rightIH =>
      refine .div leftIH rightIH (isUnit_iff_ne_zero.mpr
        (mul_ne_zero right.coefficient_ne_zero (zpow_ne_zero _ nonzero))) ?_
      have rightNonzero := right.coefficient_ne_zero
      rw [degree_div, zpow_sub₀ nonzero, coefficient_div]
      field_simp

/-- Monomials with the same values have the same coefficient and degrees. -/
theorem Expr.IsSignedMonomial.same (leftMonomial : left.IsSignedMonomial)
    (equal : ∀ name point, point ≠ 0 →
      left.coefficient * point ^ left.degree name = right.coefficient * point ^ right.degree name) :
    left.SameMonomial right := by
  have coefficients : left.coefficient = right.coefficient := by
    simpa using equal "" 1 one_ne_zero
  refine ⟨coefficients, fun name => ?_⟩
  have atTwo := equal name 2 two_ne_zero
  rw [← coefficients] at atTwo
  have powers := mul_left_cancel₀ leftMonomial.coefficient_ne_zero atTwo
  exact zpow_right_injective₀ two_pos (by decide) powers

theorem Expr.IsSignedMonomial.same_of_beq (leftMonomial : left.IsSignedMonomial)
    (rightMonomial : right.IsSignedMonomial) (equal : (left == right) = true) :
    left.SameMonomial right :=
  leftMonomial.same fun name _ nonzero =>
    (leftMonomial.means name nonzero).eq_of_beq (rightMonomial.means name nonzero) equal

/-- An operator between monomials has the coefficient and the degrees of the node. -/
theorem arithmetic_same {op : ArithOp} (source : (Expr.arith op left right).IsSignedMonomial) :
    (arithmetic op left right).Ensures (·.staysInRange = true) fun result =>
      result.IsSignedMonomial → result.SameMonomial (.arith op left right) := by
  intro start inRange monomial
  apply monomial.same
  intro name point nonzero
  have means := arithmetic_means (source.means name nonzero) start inRange
  exact (monomial.means name nonzero).unique means

/-- So has unary minus. -/
theorem neg_same (source : tree.IsSignedMonomial) :
    tree.neg.Ensures (·.staysInRange = true) fun result =>
      result.IsSignedMonomial → result.SameMonomial (.unary .neg tree) := by
  intro start inRange monomial
  apply monomial.same
  intro name point nonzero
  have means := neg_means (source.means name nonzero) start inRange
  rw [degree_neg, coefficient_neg, neg_mul]
  exact (monomial.means name nonzero).unique means

end Degrees

/-! ## Factors of one variable -/

/-- A power of a variable, or one where the exponent is zero. -/
def Expr.IsPowerOrOne (name : String) (exponent : ℤ) (tree : Expr) : Prop :=
  if exponent = 0 then ∃ mark, tree = .number (.int 1) mark else tree.IsPowerOf name exponent

/-- The arithmetic below computes with numbers, raises variables to whole powers, leaves the
reciprocals and negations of powers as they are and takes a second minus sign away. -/
structure Kernel.Raises (allowed : Step → Prop) (kernel : Kernel) : Prop where
  computes : kernel.Computes allowed
  pow : ∀ {name : String} {exponent : ℤ} {inner outer : Mark}, InRange exponent →
    (kernel.binary .pow (.var name inner) (.number (.int exponent) outer)).Ensures allowed
      (IsPowerOrOne name exponent)
  reciprocal : ∀ {name : String} {exponent : ℤ} {tree : Expr}, tree.IsPowerOf name exponent →
    0 < exponent → (kernel.binary .div (.int 1) tree).Ensures allowed fun result =>
      ∃ mark, result = .arith .div (.int 1) tree mark
  negate : ∀ {name : String} {exponent : ℤ} {tree : Expr}, tree.IsPowerOf name exponent →
    (kernel.negate tree).Ensures allowed fun result => ∃ mark, result = .unary .neg tree mark
  restore : ∀ {tree : Expr} {mark : Mark},
    (kernel.negate (.unary .neg tree mark)).Ensures allowed (· = tree)

section Factors

variable {kernel : Kernel} {allowed : Step → Prop} {name : String} {m n : ℤ}
  {tree left right : Expr}

theorem Expr.IsPowerOf.asNumber? (power : tree.IsPowerOf name m) : tree.asNumber? = none := by
  cases power <;> rfl

theorem Expr.IsPowerOf.isOne (power : tree.IsPowerOf name m) : tree.isOne = false := by
  rw [Expr.isOne, power.asNumber?]
  rfl

theorem Expr.IsPowerOf.isApplicationOf (power : tree.IsPowerOf name m) {op : ArithOp}
    (notPower : op ≠ .pow) : isApplicationOf op tree = false := by
  cases power with
  | var => rfl
  | power =>
      apply decide_eq_false
      intro same
      cases same
      exact notPower rfl

theorem Expr.IsPowerOrOne.isApplicationOf (power : tree.IsPowerOrOne name m) {op : ArithOp}
    (notPower : op ≠ .pow) : isApplicationOf op tree = false := by
  rw [IsPowerOrOne] at power
  split at power
  · obtain ⟨mark, rfl⟩ := power
    rfl
  · exact power.isApplicationOf notPower

theorem Expr.IsPowerOf.combine_eq (leftPower : left.IsPowerOf name m)
    (rightPower : right.IsPowerOf name n) (op : ArithOp) :
    combine kernel op left right = identities kernel op left right := by
  apply combine_eq_identities
  · cases leftPower <;> cases rightPower <;> exact ⟨rfl, rfl⟩
  · cases leftPower <;> cases rightPower <;> exact ⟨rfl, rfl⟩
  · cases leftPower <;> exact .inl rfl

theorem Expr.IsPowerOf.baseExponent (power : tree.IsPowerOf name m) :
    ∃ inner exponent, baseExponent tree = (.var name inner, exponent) ∧ exponent.IsWhole m := by
  cases power with
  | @var mark => exact ⟨mark, _, rfl, inRange_one, _, rfl⟩
  | @power _ inner middle outer inRange => exact ⟨inner, _, rfl, inRange, middle, rfl⟩

theorem unlike_eq_false (name : String) (inner outer : Mark) :
    ¬ ((Expr.var name inner).isNumber || Expr.var name inner != .var name outer) = true := by
  simp [isNumber, Expr.asNumber?, bne, BEq.beq, agree]

/-- Two powers of one variable are multiplied by adding the exponents. -/
theorem combine_mul_powers (raises : kernel.Raises allowed) (leftPower : left.IsPowerOf name m)
    (rightPower : right.IsPowerOf name n) :
    (combine kernel .mul left right).Succeeds allowed (IsPowerOrOne name (m + n)) := by
  obtain ⟨inner, first, leftParts, firstWhole⟩ := leftPower.baseExponent
  obtain ⟨outer, second, rightParts, secondWhole⟩ := rightPower.baseExponent
  have rules : identities kernel .mul left right =
      (mulSigns kernel left right <|> mulPowers kernel left right) := by
    simp [identities, mulIdentities, Expr.isZero, Expr.isOne, Expr.isMinusOne, leftPower.asNumber?,
      rightPower.asNumber?]
  have unsigned : mulSigns kernel left right = failure := by
    cases leftPower <;> cases rightPower <;> rfl
  rw [leftPower.combine_eq rightPower, rules, unsigned]
  refine .failure_orElse rfl ?_
  rw [mulPowers, leftParts, rightParts]
  dsimp only
  rw [if_neg (unlike_eq_false name inner outer)]
  refine .bind (.lift (raises.computes.add firstWhole secondWhole)) ?_
  rintro _ ⟨inRange, mark, rfl⟩
  exact .lift (raises.pow inRange)

/-- What two powers of one variable are divided to: a power again, unless the exponent
above the bar is the smaller one. -/
def Expr.IsQuotientOf (name : String) (m n : ℤ) (tree : Expr) : Prop :=
  if n ≤ m then tree.IsPowerOrOne name (m - n)
  else ∃ power mark, power.IsPowerOf name (n - m) ∧ tree = .arith .div (.int 1) power mark

theorem eq_of_beq_powers (leftPower : left.IsPowerOf name m) (rightPower : right.IsPowerOf name n)
    (equal : (left == right) = true) : m = n := by
  cases leftPower with
  | var =>
      cases rightPower with
      | var => rfl
      | power => cases equal
  | power =>
      cases rightPower with
      | var => cases equal
      | power => simpa [BEq.beq, agree, instBEqNumber.beq, Number.isNaN] using equal

/-- Two powers of one variable are divided by subtracting the exponents. -/
theorem combine_div_powers (raises : kernel.Raises allowed) (leftPower : left.IsPowerOf name m)
    (rightPower : right.IsPowerOf name n) :
    (combine kernel .div left right).Succeeds allowed (IsQuotientOf name m n) := by
  obtain ⟨inner, first, leftParts, firstWhole⟩ := leftPower.baseExponent
  obtain ⟨outer, second, rightParts, secondWhole⟩ := rightPower.baseExponent
  have rules : identities kernel .div left right =
      if left == right then pure (.int 1)
      else tangentRule left right <|> divSigns kernel left right <|>
        divPowers kernel left right := by
    simp [identities, divIdentities, Expr.isZero, Expr.isOne, Expr.isMinusOne, leftPower.asNumber?,
      rightPower.asNumber?]
  have notTangent : tangentRule left right = failure := by
    cases leftPower <;> rfl
  have unsigned : divSigns kernel left right = failure := by
    cases leftPower <;> cases rightPower <;> rfl
  rw [leftPower.combine_eq rightPower, rules]
  split
  · rename_i equal
    obtain rfl := eq_of_beq_powers leftPower rightPower equal
    refine .pure ?_
    rw [IsQuotientOf, if_pos le_rfl, sub_self]
    exact ⟨_, rfl⟩
  · rw [notTangent, unsigned]
    refine .failure_orElse rfl (.failure_orElse rfl ?_)
    rw [divPowers, leftParts, rightParts]
    dsimp only
    rw [if_neg (unlike_eq_false name inner outer)]
    refine .bind (.lift (raises.computes.sub firstWhole secondWhole)) ?_
    rintro _ ⟨inRange, mark, rfl⟩
    have negative : (Expr.number (.int (m - n)) mark).isNegativeNumber = decide (m - n < 0) := rfl
    by_cases smaller : n ≤ m
    · rw [negative, decide_eq_false (by omega), if_neg Bool.false_ne_true]
      refine .lift ((raises.pow inRange).mono fun result power => ?_)
      rwa [IsQuotientOf, if_pos smaller]
    · rw [negative, decide_eq_true (by omega), if_pos rfl]
      refine .bind (.lift (raises.computes.neg ⟨inRange, mark, rfl⟩)) ?_
      rintro _ ⟨oppositeInRange, outer, rfl⟩
      refine .bind (.lift (raises.pow oppositeInRange)) fun power isPower => ?_
      rw [neg_sub] at isPower
      rw [IsPowerOrOne, if_neg (by omega)] at isPower
      refine .lift ((raises.reciprocal isPower (by omega)).mono ?_)
      rintro _ ⟨mark, rfl⟩
      rw [IsQuotientOf, if_neg smaller]
      exact ⟨power, mark, isPower, rfl⟩

/-- A positive power is a term of its own. -/
theorem Expr.IsPowerOf.fillMultiplicative (power : tree.IsPowerOf name m) (positive : 0 < m)
    (terms : Terms) : fillMultiplicative tree terms = pure (terms.push tree) := by
  cases power with
  | var => rfl
  | power =>
      rw [SymbolicAlgebra.fillMultiplicative, if_neg]
      simpa [Number.isNegative] using positive.le

theorem PowerForm.Shows.isPowerOrOne {exponent : ℤ} (inRange : InRange exponent)
    (shows : (PowerForm.ofExponent (.int exponent)).Shows name tree) :
    tree.IsPowerOrOne name exponent := by
  by_cases zero : exponent = 0
  · subst zero
    rw [IsPowerOrOne, if_pos rfl]
    exact shows
  · rw [IsPowerOrOne, if_neg zero]
    by_cases one : exponent = 1
    · subst one
      obtain ⟨mark, rfl⟩ := shows
      exact .var
    · rw [PowerForm.ofExponent_int zero one] at shows
      obtain ⟨_, inner, middle, outer, rfl⟩ := shows
      exact .power inRange

theorem applyBinary_reciprocal (power : tree.IsPowerOf name m) (positive : 0 < m) :
    (applyBinary kernel .div (.int 1) tree).Ensures allowed fun result =>
      ∃ mark, result = .arith .div (.int 1) tree mark := by
  have fails : (combine kernel .div (.int 1) tree).Ensures allowed fun _ => False := by
    have symbolic : combine kernel .div (.int 1) tree = identities kernel .div (.int 1) tree := by
      apply combine_eq_identities
      · cases power <;> exact ⟨rfl, rfl⟩
      · cases power <;> exact ⟨rfl, rfl⟩
      · cases power <;> exact .inr rfl
    rw [symbolic]
    cases power <;> exact .failure
  refine fails.run_none ?_
  refine collectOrBuild_builds ⟨[.int 1], [tree]⟩ rfl ?_ rfl fun mark => ⟨mark, rfl⟩
  have filled : fill .multiplicative tree ⟨[], [.int 1]⟩ = pure ⟨[tree], [.int 1]⟩ :=
    power.fillMultiplicative positive _
  change (fill .multiplicative tree ⟨[], [.int 1]⟩ >>= fun terms => pure terms.swap) = _
  rw [filled]
  rfl

theorem Expr.IsPowerOf.applyNegation (power : tree.IsPowerOf name m) :
    (applyNegation kernel tree).Ensures allowed fun result =>
      ∃ mark, result = .unary .neg tree mark := by
  cases power with
  | var => exact applyNegation_var
  | power =>
      exact applyNegation_ensures rfl rfl rfl rfl rfl (.orElse .failure .failure)
        fun mark => ⟨mark, rfl⟩

theorem Kernel.above_raises (kept : ∀ number, ¬ allowed (.inexact number)) (kernel : Kernel) :
    kernel.above.Raises allowed where
  computes := above_computes kept
  pow inRange := applyBinary_pow_var.mono fun _ shows => shows.isPowerOrOne inRange
  reciprocal power positive := applyBinary_reciprocal power positive
  negate power := power.applyNegation
  restore := .pure rfl

theorem Kernel.ofDepth_raises (kept : ∀ number, ¬ allowed (.inexact number)) (depth : Nat) :
    (Kernel.ofDepth (depth + 1)).Raises allowed :=
  above_raises kept _

end Factors

end SymbolicAlgebra
