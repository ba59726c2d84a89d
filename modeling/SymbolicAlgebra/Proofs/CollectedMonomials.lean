import SymbolicAlgebra.Proofs.ArrangedFactors

/-!
# Simplified monomials

A monomial is simplified to one with the same coefficient and the same degrees, in which
each variable stands at most once above the fraction bar and at most once below it.  It
stays on both sides only where the exponent above is the smaller one: there the quotient
of the two powers is a quotient again, which cancelling does not accept.

Powers of one variable are joined by the identities, and the factors of all other
operands are collected.  A product that is multiplied by itself is left out, since it
becomes a power of a product.
-/

namespace SymbolicAlgebra

open SymbolicAlgebra.Expr

section Operators

variable {kernel : Kernel} {allowed : Step → Prop} {name : String} {exponent : ℤ} {value : ℚ}
  {tree left right : Expr} {terms : Terms} {mark : Mark} {op : ArithOp} {total : Nat}
  {Listed condition : Expr → Prop}

theorem Expr.IsLeafOf.isCollected (leaf : tree.IsLeafOf ⟨value, 0⟩) (positive : 0 < value) :
    tree.IsCollected := by
  refine ⟨.factor (.number leaf positive), fun name => ?_⟩
  rw [leaf.exponents]
  exact .absent

theorem Expr.IsPowerOf.isCollected (power : tree.IsPowerOf name exponent)
    (nonzero : exponent ≠ 0) : tree.IsCollected := by
  refine ⟨.factor (.power power nonzero), fun name => ?_⟩
  rw [power.exponents]
  split
  · exact .once nonzero
  · exact .absent

theorem Expr.IsPowerOrOne.isCollected (power : tree.IsPowerOrOne name exponent) :
    tree.IsCollected := by
  rw [IsPowerOrOne] at power
  split at power
  · obtain ⟨mark, rfl⟩ := power
    exact (isLeafOf_one mark).isCollected one_pos
  · rename_i nonzero
    exact power.isCollected nonzero

/-! ### Listing the factors -/

/-- The number of factors of a monomial. -/
def Expr.factorCount : Expr → Nat
  | .arith .mul left right _ | .arith .div left right _ => left.factorCount + right.factorCount
  | .unary .neg operand _ => operand.factorCount
  | _ => 1

theorem Expr.IsFactor.factorCount {Admitted : ℤ → Prop} (factor : tree.IsFactor Admitted) :
    tree.factorCount = 1 := by
  cases factor with
  | number leaf _ =>
      obtain ⟨number, mark, _, rfl⟩ := leaf
      rfl
  | power power _ => cases power <;> rfl

theorem Expr.factorCount_pos (tree : Expr) : 0 < tree.factorCount := by
  fun_induction factorCount tree with
  | case1 left right mark leftIH rightIH => omega
  | case2 left right mark leftIH rightIH => omega
  | case3 operand mark ih => exact ih
  | case4 => exact one_pos

theorem one_lt_factorCount_arith (family : Chain.of? op = some .multiplicative) :
    1 < (Expr.arith op left right mark).factorCount := by
  have leftCount := left.factorCount_pos
  have rightCount := right.factorCount_pos
  cases op with
  | mul | div =>
      rw [Expr.factorCount]
      omega
  | add | sub | pow => cases family

theorem Expr.IsMonomial.isFactor (monomial : tree.IsMonomial) (single : tree.factorCount ≤ 1) :
    tree.IsFactor (· ≠ 0) := by
  cases monomial with
  | factor factor => exact factor
  | mul | div => exact absurd single (one_lt_factorCount_arith rfl).not_ge

theorem Expr.IsMonomial.arith (leftMonomial : left.IsMonomial)
    (family : Chain.of? op = some .multiplicative) (rightMonomial : right.IsMonomial) :
    (Expr.arith op left right mark).IsMonomial := by
  cases op with
  | mul => exact .mul leftMonomial rightMonomial
  | div => exact .div leftMonomial rightMonomial
  | add | sub | pow => cases family

/-- The terms are of one kind, and there are this many. -/
structure ListsFactors (Listed : Expr → Prop) (total : Nat) (terms : Terms) : Prop where
  upTerms : ∀ factor ∈ terms.up, Listed factor
  downTerms : ∀ factor ∈ terms.down, Listed factor
  length : terms.up.length + terms.down.length = total

theorem ListsFactors.swap (lists : ListsFactors Listed total terms) :
    ListsFactors Listed total terms.swap :=
  ⟨lists.downTerms, lists.upTerms, (Nat.add_comm _ _).trans lists.length⟩

theorem ListsFactors.push (lists : ListsFactors Listed total terms) (listed : Listed tree) :
    ListsFactors Listed (total + 1) (terms.push tree) := by
  refine ⟨?_, lists.downTerms, ?_⟩
  · exact List.forall_mem_append.mpr ⟨lists.upTerms, List.forall_mem_singleton.mpr listed⟩
  · rw [← lists.length]
    simp only [Terms.push, List.length_append, List.length_singleton]
    omega

/-- The factors of the tree are listed behind any others. -/
def Expr.FillsFactors (allowed : Step → Prop) (Listed : Expr → Prop) (tree : Expr) : Prop :=
  ∀ (terms : Terms) (total : Nat), ListsFactors Listed total terms →
    (fillMultiplicative tree terms).Ensures allowed (ListsFactors Listed (total + tree.factorCount))

theorem Expr.FillsFactors.mul (leftFills : left.FillsFactors allowed Listed)
    (rightFills : right.FillsFactors allowed Listed) :
    (Expr.arith .mul left right mark).FillsFactors allowed Listed := by
  intro terms total lists
  rw [factorCount, ← Nat.add_assoc]
  exact .bind (leftFills terms total lists) fun listed lists => rightFills listed _ lists

theorem Expr.FillsFactors.div (leftFills : left.FillsFactors allowed Listed)
    (rightFills : right.FillsFactors allowed Listed) :
    (Expr.arith .div left right mark).FillsFactors allowed Listed := by
  intro terms total lists
  rw [factorCount, ← Nat.add_assoc]
  refine .bind (leftFills terms total lists) fun listed lists => ?_
  exact .bind (rightFills listed.swap _ lists.swap) fun _ lists => .pure lists.swap

/-- From three factors on the operands are collected. -/
theorem collectOrBuild_ensures (family : Chain.of? op = some .multiplicative)
    (leftFills : left.FillsFactors allowed Listed)
    (rightFills : right.FillsFactors allowed Listed)
    (collects : ∀ {terms : Terms}, (∀ factor ∈ terms.up, Listed factor) →
      (∀ factor ∈ terms.down, Listed factor) →
        (collect kernel .multiplicative terms).Ensures allowed condition)
    (builds : left.factorCount ≤ 1 → right.factorCount ≤ 1 →
      ∀ mark, condition (.arith op left right mark)) :
    (collectOrBuild kernel op left right).Ensures allowed condition := by
  have nothing : ListsFactors Listed 0 .empty := ⟨nofun, nofun, rfl⟩
  have fills : (fillOperands .multiplicative op left right .empty).Ensures allowed
      (ListsFactors Listed (left.factorCount + right.factorCount)) := by
    rw [← Nat.zero_add left.factorCount]
    refine .bind (leftFills _ 0 nothing) fun terms lists => ?_
    split
    · exact .bind (rightFills terms.swap _ lists.swap) fun _ lists => .pure lists.swap
    · exact rightFills terms _ lists
  unfold collectOrBuild
  rw [family]
  refine collectFilled_ensures fills fun terms lists => ?_
  split
  · exact collects lists.upTerms lists.downTerms
  · -- Two terms at most are left, so both operands are single factors.
    rename_i few
    have leftCount := left.factorCount_pos
    have rightCount := right.factorCount_pos
    have length := lists.length
    have atMost : terms.up.length + terms.down.length ≤ 2 := by
      simpa [Chain.shouldCollect] using few
    exact .make (builds (by omega) (by omega))

theorem reciprocalPower_isPowerOf (kept : ∀ number, ¬ allowed (.inexact number))
    (negative : exponent < 0) :
    (reciprocalPower (.var name mark) (.int exponent)).Ensures allowed
      (IsPowerOf name (-exponent)) := by
  by_cases minusOne : exponent = -1
  · subst minusOne
    exact .pure .var
  · have notMinusOne : ¬ (Number.int exponent).isMinusOne = true := by
      simpa [Number.isMinusOne] using minusOne
    rw [reciprocalPower, if_neg notMinusOne]
    refine .bind (numeric_isExactLeaf kept rfl) ?_
    rintro _ ⟨exact, middle, rfl⟩
    obtain ⟨inRange, equal⟩ := Number.neg_int_eq exact
    rw [equal]
    exact .make fun outer => .power inRange

/-- A negative power is listed on the other side. -/
theorem Expr.IsFactor.fillsFactors (kept : ∀ number, ¬ allowed (.inexact number))
    (factor : tree.IsFactor (· ≠ 0)) : tree.FillsFactors allowed IsTerm := by
  intro terms total lists
  rw [factor.factorCount]
  cases factor with
  | number leaf positive =>
      have isTerm : tree.IsTerm := .number leaf positive
      obtain ⟨number, mark, _, rfl⟩ := leaf
      exact .pure (lists.push isTerm)
  | @power name exponent _ power nonzero =>
      rcases lt_or_gt_of_ne nonzero with negative | positive
      · cases power with
        | var => contradiction
        | power inRange =>
            have below : (Number.int exponent).isNegative = true := by
              simpa [Number.isNegative] using negative
            rw [fillMultiplicative, if_pos below]
            refine .bind (reciprocalPower_isPowerOf kept negative) fun flipped isPower => ?_
            exact .pure (lists.swap.push (.power isPower (neg_pos.mpr negative))).swap
      · rw [power.fillMultiplicative positive]
        exact .pure (lists.push (.power power positive))

theorem Expr.IsMonomial.fillsFactors (kept : ∀ number, ¬ allowed (.inexact number))
    (monomial : tree.IsMonomial) : tree.FillsFactors allowed IsTerm := by
  induction monomial with
  | factor factor => exact factor.fillsFactors kept
  | mul _ _ leftIH rightIH => exact .mul leftIH rightIH
  | div _ _ leftIH rightIH => exact .div leftIH rightIH

/-! ### Building and collecting -/

/-- The operands are powers of one variable. -/
def SameVariable (left right : Expr) : Prop :=
  ∃ name m n, left.IsPowerOf name m ∧ right.IsPowerOf name n

/-- The tree is a power of each variable that it holds. -/
def Expr.IsAtomic (tree : Expr) : Prop :=
  ∀ name, tree.exponents name = [] ∨
    ∃ exponent, exponent ≠ 0 ∧ tree.IsPowerOf name exponent ∧ tree.exponents name = [exponent]

theorem Expr.IsLeafOf.isAtomic {value : GaussianRational} (leaf : tree.IsLeafOf value) :
    tree.IsAtomic :=
  fun _ => .inl leaf.exponents

theorem Expr.IsPowerOf.isAtomic (power : tree.IsPowerOf name exponent) (nonzero : exponent ≠ 0) :
    tree.IsAtomic := by
  intro other
  rw [power.exponents]
  split
  · rename_i same
    exact .inr ⟨exponent, nonzero, same ▸ power, rfl⟩
  · exact .inl rfl

theorem Expr.IsFactor.isAtomic (factor : tree.IsFactor (· ≠ 0)) : tree.IsAtomic := by
  cases factor with
  | number leaf _ => exact leaf.isAtomic
  | power power nonzero => exact power.isAtomic nonzero

/-- Factors of different variables are collected, on whichever side of the bar they
stand. -/
theorem Expr.IsAtomic.collected (leftAtomic : left.IsAtomic) (rightAtomic : right.IsAtomic)
    (apart : ¬ SameVariable left right) (family : Chain.of? op = some .multiplicative)
    (name : String) : Collected ((Expr.arith op left right mark).exponents name) := by
  have together (turn : ℤ → ℤ) (turns : ∀ exponent, exponent ≠ 0 → turn exponent ≠ 0) :
      Collected (left.exponents name ++ (right.exponents name).map turn) := by
    rcases leftAtomic name with first | ⟨m, mNonzero, leftPower, first⟩
    all_goals rcases rightAtomic name with second | ⟨n, nNonzero, rightPower, second⟩
    all_goals rw [first, second]
    · exact .absent
    · exact .once (turns n nNonzero)
    · exact .once mNonzero
    · exact absurd ⟨name, m, n, leftPower, rightPower⟩ apart
  cases op with
  | mul =>
      have collected := together id fun _ nonzero => nonzero
      rwa [List.map_id] at collected
  | div => exact together (- ·) fun _ nonzero => neg_ne_zero.mpr nonzero
  | add | sub | pow => cases family

theorem collectOrBuild_isCollected (kept : ∀ number, ¬ allowed (.inexact number))
    (raises : kernel.Raises allowed) (family : Chain.of? op = some .multiplicative)
    (leftMonomial : left.IsMonomial) (rightMonomial : right.IsMonomial)
    (apart : ¬ SameVariable left right) :
    (collectOrBuild kernel op left right).Ensures allowed IsCollected := by
  refine collectOrBuild_ensures family (leftMonomial.fillsFactors kept)
    (rightMonomial.fillsFactors kept) ?_ ?_
  · intro terms upTerms downTerms
    refine (collect_isArranged kept raises ?_ ?_).mono fun _ arranged => arranged.isCollected
    · exact fun factor member => (upTerms factor member).isSigned
    · exact fun factor member => (downTerms factor member).isSigned
  · intro leftSingle rightSingle mark
    have leftFactor := leftMonomial.isFactor leftSingle
    have rightFactor := rightMonomial.isFactor rightSingle
    constructor
    · exact leftMonomial.arith family rightMonomial
    · exact leftFactor.isAtomic.collected rightFactor.isAtomic apart family

/-! ### Identities -/

/-- The operands have different bases, so their exponents are not added. -/
def Unlike (left right : Expr) : Prop :=
  ((baseExponent left).1.isNumber || (baseExponent left).1 != (baseExponent right).1) = true

/-- A number, a power of a variable, or a tree of several factors that is its own base. -/
def Expr.HasBase (tree : Expr) : Prop :=
  (∃ number mark, tree = .number number mark) ∨
    (∃ name exponent inner, tree.IsPowerOf name exponent ∧
      (baseExponent tree).1 = .var name inner) ∨
    1 < tree.factorCount ∧ (baseExponent tree).1 = tree ∧
      ∃ op left right mark, tree = .arith op left right mark

theorem Expr.IsPowerOf.hasBase (power : tree.IsPowerOf name exponent) : tree.HasBase := by
  obtain ⟨inner, exponent, parts, _⟩ := power.baseExponent
  exact .inr (.inl ⟨_, _, inner, power, by rw [parts]⟩)

theorem Expr.hasBase_arith (family : Chain.of? op = some .multiplicative) :
    (Expr.arith op left right mark).HasBase := by
  refine .inr (.inr ⟨one_lt_factorCount_arith family, ?_, _, _, _, _, rfl⟩)
  cases op with
  | mul | div => rfl
  | add | sub | pow => cases family

theorem unlike_of_different (leftBase : left.HasBase) (rightBase : right.HasBase)
    (apart : ¬ SameVariable left right)
    (different : 1 < left.factorCount → 1 < right.factorCount → (left == right) = false) :
    Unlike left right := by
  rw [Unlike]
  rcases leftBase with ⟨number, mark, rfl⟩ | ⟨name, m, inner, leftPower, base⟩ |
    ⟨several, base, op, first, second, mark, rfl⟩
  · rfl
  all_goals
    rw [base]
    rcases rightBase with ⟨number, mark, rfl⟩ | ⟨other, n, outer, rightPower, otherBase⟩ |
      ⟨otherSeveral, otherBase, op, third, fourth, mark, rfl⟩
  · rfl
  · have names : name ≠ other := by
      rintro rfl
      exact apart ⟨name, m, n, leftPower, rightPower⟩
    rw [otherBase]
    simpa [isNumber, Expr.asNumber?, bne, BEq.beq, agree] using names
  · rw [otherBase]
    rfl
  · rfl
  · rw [otherBase]
    rfl
  · rw [otherBase, bne, different several otherSeveral]
    rfl

/-- A number, a variable or an operator. -/
def Expr.IsUnnegated (tree : Expr) : Prop :=
  (∃ number mark, tree = .number number mark) ∨ (∃ name mark, tree = .var name mark) ∨
    ∃ op left right mark, tree = .arith op left right mark

theorem Expr.HasBase.isUnnegated (base : tree.HasBase) : tree.IsUnnegated := by
  rcases base with isNumber | ⟨_, _, _, power, _⟩ | ⟨_, _, isArith⟩
  · exact .inl isNumber
  · cases power with
    | var => exact .inr (.inl ⟨_, _, rfl⟩)
    | power => exact .inr (.inr ⟨_, _, _, _, rfl⟩)
  · exact .inr (.inr isArith)

/-- The rules for signs and tangents do not apply. -/
theorem signs_failures (leftShape : left.IsUnnegated) (rightShape : right.IsUnnegated) :
    mulSigns kernel left right = failure ∧ divSigns kernel left right = failure ∧
      tangentRule left right = failure := by
  rcases leftShape with ⟨_, _, rfl⟩ | ⟨_, _, rfl⟩ | ⟨_, _, _, _, rfl⟩
  all_goals rcases rightShape with ⟨_, _, rfl⟩ | ⟨_, _, rfl⟩ | ⟨_, _, _, _, rfl⟩
  all_goals exact ⟨rfl, rfl, rfl⟩

/-- What the rules for two operands ask of a monomial. -/
structure Expr.IsPlain (tree : Expr) : Prop where
  isError : tree.isError = false
  asArray? : tree.asArray? = none
  isZero : tree.isZero = false
  hasBase : tree.HasBase

theorem Expr.IsLeafOf.isPlain {value : ℚ} (leaf : tree.IsLeafOf ⟨value, 0⟩) (nonzero : value ≠ 0) :
    tree.IsPlain := by
  have notZero := Bool.eq_false_iff.mpr (mt leaf.isZero_iff.mp nonzero)
  obtain ⟨number, mark, represents, rfl⟩ := leaf
  exact ⟨isError_number represents.isExact, rfl, notZero, .inl ⟨number, mark, rfl⟩⟩

theorem Expr.IsPowerOf.isPlain (power : tree.IsPowerOf name exponent) : tree.IsPlain := by
  have base := power.hasBase
  cases power <;> exact ⟨rfl, rfl, rfl, base⟩

theorem Expr.isPlain_arith (family : Chain.of? op = some .multiplicative) :
    (Expr.arith op left right mark).IsPlain :=
  ⟨rfl, rfl, rfl, hasBase_arith family⟩

theorem Expr.IsMonomial.isPlain (monomial : tree.IsMonomial) : tree.IsPlain := by
  cases monomial with
  | factor factor =>
      cases factor with
      | number leaf positive => exact leaf.isPlain positive.ne'
      | power power _ => exact power.isPlain
  | mul | div => exact isPlain_arith rfl

theorem Expr.IsMonomial.isMinusOne (monomial : tree.IsMonomial) : tree.isMinusOne = false := by
  cases monomial with
  | factor factor =>
      cases factor with
      | number leaf positive =>
          refine Bool.eq_false_iff.mpr (mt leaf.isMinusOne_iff.mp ?_)
          rintro rfl
          exact absurd positive (by norm_num)
      | power power _ => cases power <;> rfl
  | mul | div => rfl

theorem Expr.IsMonomial.isLeafOf_of_isConstant (monomial : tree.IsMonomial)
    (constant : tree.isConstant = true) : ∃ value, 0 < value ∧ tree.IsLeafOf ⟨value, 0⟩ := by
  cases monomial with
  | factor factor =>
      cases factor with
      | number leaf positive => exact ⟨_, positive, leaf⟩
      | power power _ => cases power <;> cases constant
  | mul | div => cases constant

/-- A neutral operand of a product is left out. -/
theorem mulIdentities_neutral (leftZero : left.isZero = false)
    (rightZero : right.isZero = false) (one : left.isOne = true ∨ right.isOne = true)
    (leftHolds : condition left) (rightHolds : condition right) :
    (mulIdentities kernel left right).Succeeds allowed condition := by
  simp only [mulIdentities, leftZero, rightZero, Bool.false_eq_true, if_false]
  split
  · exact .pure rightHolds
  · rename_i notOne
    rw [if_pos (one.resolve_left notOne)]
    exact .pure leftHolds

theorem mulIdentities_eq_signs (zeros : left.isZero = false ∧ right.isZero = false)
    (ones : left.isOne = false ∧ right.isOne = false)
    (minusOnes : left.isMinusOne = false ∧ right.isMinusOne = false) :
    mulIdentities kernel left right =
      (mulSigns kernel left right <|> mulPowers kernel left right) := by
  simp only [mulIdentities, zeros, ones, minusOnes, Bool.false_eq_true, if_false]

/-- Operands of which no sign is to be moved, and which are not factored further. -/
structure Joinable (op : ArithOp) (left right : Expr) : Prop where
  leftPlain : left.IsPlain
  rightPlain : right.IsPlain
  leftMinusOne : op = .mul → left.isMinusOne = false
  rightMinusOne : right.isMinusOne = false
  different : op = .mul → 1 < left.factorCount → 1 < right.factorCount → (left == right) = false

/-- Where no operand is neutral and one is not a number, only equal ones are joined. -/
theorem Joinable.identities_ensures (joinable : Joinable op left right)
    (family : Chain.of? op = some .multiplicative) (apart : ¬ SameVariable left right)
    (leftOne : op = .mul → left.isOne = false) (rightOne : right.isOne = false)
    (one : condition (.int 1)) : (identities kernel op left right).Ensures allowed condition := by
  have unlike (different : 1 < left.factorCount → 1 < right.factorCount →
      (left == right) = false) : Unlike left right :=
    unlike_of_different joinable.leftPlain.hasBase joinable.rightPlain.hasBase apart different
  have ⟨unsigned, divUnsigned, notTangent⟩ : mulSigns kernel left right = _ ∧ _ ∧ _ :=
    signs_failures joinable.leftPlain.hasBase.isUnnegated joinable.rightPlain.hasBase.isUnnegated
  cases op with
  | mul =>
      have noPowers : mulPowers kernel left right = failure :=
        if_pos (unlike (joinable.different rfl))
      have rules : identities kernel .mul left right =
          (mulSigns kernel left right <|> mulPowers kernel left right) :=
        mulIdentities_eq_signs ⟨joinable.leftPlain.isZero, joinable.rightPlain.isZero⟩
          ⟨leftOne rfl, rightOne⟩ ⟨joinable.leftMinusOne rfl, joinable.rightMinusOne⟩
      rw [rules, unsigned, noPowers]
      exact .orElse .failure .failure
  | div =>
      simp only [identities, divIdentities, joinable.leftPlain.isZero, rightOne,
        joinable.rightMinusOne, divUnsigned, notTangent, Bool.false_and, Bool.false_eq_true,
        if_false]
      split
      · exact .pure one
      · rename_i different
        have noPowers : divPowers kernel left right = failure :=
          if_pos (unlike fun _ _ => Bool.eq_false_iff.mpr different)
        rw [noPowers]
        exact .failure
  | add | sub | pow => cases family

/-- A neutral operand is left out. -/
theorem Joinable.identities_neutral (joinable : Joinable op left right)
    (family : Chain.of? op = some .multiplicative)
    (neutral : op = .mul ∧ left.isOne = true ∨ right.isOne = true) (leftHolds : condition left)
    (rightHolds : op = .mul → condition right) :
    (identities kernel op left right).Succeeds allowed condition := by
  cases op with
  | mul =>
      have one := neutral.imp_left (·.2)
      exact mulIdentities_neutral joinable.leftPlain.isZero joinable.rightPlain.isZero one
        leftHolds (rightHolds rfl)
  | div =>
      have one : right.isOne = true := neutral.resolve_left fun impossible => nomatch impossible.1
      simp only [identities, divIdentities, one, if_true]
      exact .pure leftHolds
  | add | sub | pow => cases family

/-- Numbers are computed, powers of one variable are joined, and all other operands are
collected if no operand is neutral and they are not equal. -/
theorem Joinable.applyBinary_ensures (joinable : Joinable op left right)
    (family : Chain.of? op = some .multiplicative)
    (numbers : left.isConstant = true → right.isConstant = true →
      (combine kernel op left right).Succeeds allowed condition)
    (powers : SameVariable left right → (combine kernel op left right).Succeeds allowed condition)
    (leftHolds : condition left) (rightHolds : op = .mul → condition right)
    (one : condition (.int 1))
    (collects : (left.isConstant = false ∨ right.isConstant = false) →
      (op = .mul → left.isOne = false) → right.isOne = false → ¬ SameVariable left right →
        (collectOrBuild kernel op left right).Ensures allowed condition) :
    (applyBinary kernel op left right).Ensures allowed condition := by
  by_cases constants : left.isConstant = true ∧ right.isConstant = true
  · exact (numbers constants.1 constants.2).run_match fun _ holds => .pure holds
  by_cases same : SameVariable left right
  · exact (powers same).run_match fun _ holds => .pure holds
  have symbolic : left.isConstant = false ∨ right.isConstant = false := by
    simpa [or_iff_not_imp_left] using constants
  have rules : combine kernel op left right = identities kernel op left right :=
    combine_eq_identities ⟨joinable.leftPlain.isError, joinable.rightPlain.isError⟩
      ⟨joinable.leftPlain.asArray?, joinable.rightPlain.asArray?⟩ symbolic
  rw [applyBinary, rules]
  by_cases neutral : op = .mul ∧ left.isOne = true ∨ right.isOne = true
  · exact (joinable.identities_neutral family neutral leftHolds rightHolds).run_match
      fun _ holds => .pure holds
  · rw [not_or, not_and] at neutral
    have leftOne (product : op = .mul) := Bool.eq_false_iff.mpr (neutral.1 product)
    have rightOne := Bool.eq_false_iff.mpr neutral.2
    exact (joinable.identities_ensures family same leftOne rightOne one).run_match
      (fun _ holds => .pure holds) (collects symbolic leftOne rightOne same)

/-- What numbers are joined to. -/
theorem combine_numbers_leaf (kept : ∀ number, ¬ allowed (.inexact number))
    (family : Chain.of? op = some .multiplicative) {p q : ℚ} (leftLeaf : left.IsLeafOf ⟨p, 0⟩)
    (rightLeaf : right.IsLeafOf ⟨q, 0⟩) (leftNonzero : p ≠ 0) (rightNonzero : q ≠ 0) :
    (combine kernel op left right).Succeeds allowed fun result =>
      ∃ value, value ≠ 0 ∧ (0 < p → 0 < q → 0 < value) ∧ result.IsLeafOf ⟨value, 0⟩ := by
  cases op with
  | mul =>
      refine (combine_mul_leaves kept leftLeaf rightLeaf).mono fun result leaf => ?_
      exact ⟨p * q, mul_ne_zero leftNonzero rightNonzero, mul_pos, leaf⟩
  | div =>
      refine (combine_div_leaves kept leftLeaf rightLeaf rightNonzero).mono fun result leaf => ?_
      exact ⟨p / q, div_ne_zero leftNonzero rightNonzero, div_pos, leaf⟩
  | add | sub | pow => cases family

theorem Expr.IsQuotientOf.isCollected {m n : ℤ} (quotient : tree.IsQuotientOf name m n) :
    tree.IsCollected := by
  rw [IsQuotientOf] at quotient
  split at quotient
  · exact quotient.isCollected
  · rename_i smaller
    obtain ⟨power, mark, isPower, rfl⟩ := quotient
    have collected := isPower.isCollected (by omega)
    refine ⟨.div (.factor (.number (isLeafOf_one _) one_pos)) collected.isMonomial, fun name => ?_⟩
    rw [Expr.exponents, isPower.exponents]
    split
    · exact .once (neg_ne_zero.mpr (by omega))
    · exact .absent

/-- An operator between collected monomials gives a collected one, unless a product is
multiplied by itself. -/
theorem applyBinary_isCollected (kept : ∀ number, ¬ allowed (.inexact number))
    (raises : kernel.Raises allowed) (family : Chain.of? op = some .multiplicative)
    (leftCollected : left.IsCollected) (rightCollected : right.IsCollected)
    (different : op = .mul → 1 < left.factorCount → 1 < right.factorCount →
      (left == right) = false) :
    (applyBinary kernel op left right).Ensures allowed IsCollected := by
  have leftMonomial := leftCollected.isMonomial
  have rightMonomial := rightCollected.isMonomial
  have joinable : Joinable op left right := ⟨leftMonomial.isPlain, rightMonomial.isPlain,
    fun _ => leftMonomial.isMinusOne, rightMonomial.isMinusOne, different⟩
  refine joinable.applyBinary_ensures family ?numbers ?powers leftCollected
    (fun _ => rightCollected) ((isLeafOf_one _).isCollected one_pos)
    fun _ _ _ => collectOrBuild_isCollected kept raises family leftMonomial rightMonomial
  case numbers =>
    intro leftConstant rightConstant
    obtain ⟨p, pPositive, leftLeaf⟩ := leftMonomial.isLeafOf_of_isConstant leftConstant
    obtain ⟨q, qPositive, rightLeaf⟩ := rightMonomial.isLeafOf_of_isConstant rightConstant
    refine (combine_numbers_leaf kept family leftLeaf rightLeaf pPositive.ne' qPositive.ne').mono ?_
    rintro result ⟨value, _, positive, leaf⟩
    exact leaf.isCollected (positive pPositive qPositive)
  case powers =>
    rintro ⟨name, m, n, leftPower, rightPower⟩
    cases op with
    | mul => exact (combine_mul_powers raises leftPower rightPower).mono fun _ => (·.isCollected)
    | div => exact (combine_div_powers raises leftPower rightPower).mono fun _ => (·.isCollected)
    | add | sub | pow => cases family

end Operators

/-! ## Simplification -/

/-- Products and quotients of positive numbers, variables and powers of variables, where no
product of several factors is multiplied by the same monomial. -/
inductive Expr.IsUnsquared : Expr → Prop where
  | factor {tree : Expr} : tree.IsFactor (· ≠ 0) → IsUnsquared tree
  | mul {left right : Expr} {mark : Mark} : IsUnsquared left → IsUnsquared right →
      (1 < left.factorCount → 1 < right.factorCount → ¬ left.SameMonomial right) →
        IsUnsquared (.arith .mul left right mark)
  | div {left right : Expr} {mark : Mark} : IsUnsquared left → IsUnsquared right →
      IsUnsquared (.arith .div left right mark)

/-- What a monomial is simplified to: the same monomial with its factors collected. -/
structure Expr.IsReducedTo (tree result : Expr) : Prop where
  isCollected : result.IsCollected
  same : result.SameMonomial tree
  isFactor : tree.IsFactor (· ≠ 0) → result.IsFactor (· ≠ 0)

section Simplification

variable {controller : Option Controller} {fuel : Nat} {tree left right : Expr} {mark : Mark}
  {op : ArithOp}

theorem Expr.IsUnsquared.isMonomial (unsquared : tree.IsUnsquared) : tree.IsMonomial := by
  induction unsquared with
  | factor factor => exact .factor factor
  | mul _ _ _ leftIH rightIH => exact .mul leftIH rightIH
  | div _ _ leftIH rightIH => exact .div leftIH rightIH

theorem Expr.SameMonomial.symm (same : left.SameMonomial right) : right.SameMonomial left :=
  ⟨same.coefficient.symm, fun name => (same.degree name).symm⟩

theorem Expr.SameMonomial.trans {other : Expr} (same : tree.SameMonomial left)
    (next : left.SameMonomial other) : tree.SameMonomial other :=
  ⟨same.coefficient.trans next.coefficient, fun name => (same.degree name).trans (next.degree name)⟩

theorem Expr.SameMonomial.arith {first second : Expr} (family : Chain.of? op = some .multiplicative)
    (leftSame : first.SameMonomial left) (rightSame : second.SameMonomial right) :
    (Expr.arith op first second).SameMonomial (.arith op left right mark) := by
  cases op with
  | mul =>
      refine ⟨?_, fun name => ?_⟩
      · simp only [coefficient_mul, leftSame.coefficient, rightSame.coefficient]
      · rw [degree_mul, degree_mul, leftSame.degree, rightSame.degree]
  | div =>
      refine ⟨?_, fun name => ?_⟩
      · simp only [coefficient_div, leftSame.coefficient, rightSame.coefficient]
      · rw [degree_div, degree_div, leftSame.degree, rightSame.degree]
  | add | sub | pow => cases family

theorem Expr.IsReducedTo.one_lt_factorCount {result : Expr} (reduced : tree.IsReducedTo result)
    (monomial : tree.IsMonomial) (several : 1 < result.factorCount) : 1 < tree.factorCount := by
  by_contra single
  have factor := reduced.isFactor (monomial.isFactor (not_lt.mp single))
  exact absurd factor.factorCount several.ne'

/-- Different monomials are simplified to different trees. -/
theorem Expr.IsReducedTo.beq_eq_false {first second : Expr} (leftMonomial : left.IsMonomial)
    (rightMonomial : right.IsMonomial) (leftReduced : left.IsReducedTo first)
    (rightReduced : right.IsReducedTo second)
    (different : 1 < left.factorCount → 1 < right.factorCount → ¬ left.SameMonomial right)
    (several : 1 < first.factorCount) (otherSeveral : 1 < second.factorCount) :
    (first == second) = false := by
  refine Bool.eq_false_iff.mpr fun equal => different ?_ ?_ ?_
  · exact leftReduced.one_lt_factorCount leftMonomial several
  · exact rightReduced.one_lt_factorCount rightMonomial otherSeveral
  · have same := leftReduced.isCollected.isMonomial.isSigned.same_of_beq
      rightReduced.isCollected.isMonomial.isSigned equal
    exact leftReduced.same.symm.trans (same.trans rightReduced.same)

theorem arithmetic_isReducedTo {first second : Expr} (family : Chain.of? op = some .multiplicative)
    (leftMonomial : left.IsMonomial) (rightMonomial : right.IsMonomial)
    (leftReduced : left.IsReducedTo first) (rightReduced : right.IsReducedTo second)
    (different : op = .mul → 1 < left.factorCount → 1 < right.factorCount →
      ¬ left.SameMonomial right) :
    (arithmetic op first second).Ensures (·.staysInRange = true)
      (IsReducedTo (.arith op left right mark)) := by
  have kept : ∀ number, ¬ (Step.inexact number).staysInRange = true := fun _ => Bool.false_ne_true
  have firstMonomial := leftReduced.isCollected.isMonomial
  have secondMonomial := rightReduced.isCollected.isMonomial
  have unequal (product : op = .mul) :=
    leftReduced.beq_eq_false leftMonomial rightMonomial rightReduced (different product)
  have collects : (arithmetic op first second).Ensures (·.staysInRange = true) IsCollected := by
    obtain ⟨depth, engine⟩ := arithmetic_eq_ofDepth op first second
    rw [engine]
    exact applyBinary_isCollected kept (Kernel.ofDepth_raises kept (depth + 254)) family
      leftReduced.isCollected rightReduced.isCollected unequal
  have source : (Expr.arith op first second).IsMonomial := firstMonomial.arith family secondMonomial
  refine (collects.and (arithmetic_same source.isSigned)).mono ?_
  rintro result ⟨collected, same⟩
  refine ⟨collected, ?_, fun factor => ?_⟩
  · refine (same collected.isMonomial.isSigned).trans ?_
    exact .arith family leftReduced.same rightReduced.same
  · exact absurd factor.factorCount (one_lt_factorCount_arith family).ne'

theorem Expr.IsPowerOf.same {name : String} {exponent : ℤ}
    (leftPower : left.IsPowerOf name exponent) (rightPower : right.IsPowerOf name exponent) : left.SameMonomial right where
  coefficient := leftPower.coefficient.trans rightPower.coefficient.symm
  degree _ := leftPower.degree.trans rightPower.degree.symm

theorem Expr.IsPowerOf.evaluateTo {name : String} {exponent : ℤ}
    (power : tree.IsPowerOf name exponent) (nonzero : exponent ≠ 0) (enough : tree.size ≤ fuel) :
    (evaluateTo controller fuel tree).Finishes (·.staysInRange = true) .empty
      (IsPowerOf name exponent) := by
  cases power with
  | var => exact evaluateTo_leaf rfl enough .var
  | power inRange =>
      refine (evaluateTo_pow_var enough).mono fun result shows => ?_
      have raised := shows.isPowerOrOne inRange
      rwa [IsPowerOrOne, if_neg nonzero] at raised

theorem Expr.IsFactor.evaluateTo (factor : tree.IsFactor (· ≠ 0)) (enough : tree.size ≤ fuel) :
    (evaluateTo controller fuel tree).Finishes (·.staysInRange = true) .empty
      (IsReducedTo tree) := by
  cases factor with
  | number leaf positive =>
      have reduced : tree.IsReducedTo tree :=
        ⟨leaf.isCollected positive, ⟨rfl, fun _ => rfl⟩, fun factor => factor⟩
      obtain ⟨number, mark, _, rfl⟩ := leaf
      exact evaluateTo_leaf rfl enough reduced
  | power power nonzero =>
      refine (power.evaluateTo nonzero enough).mono fun result resultPower => ?_
      exact ⟨resultPower.isCollected nonzero, resultPower.same power, fun _ =>
        .power resultPower nonzero⟩

/-- The factors of a monomial are collected along the evaluation of the tree. -/
theorem Expr.IsUnsquared.evaluateTo (unsquared : tree.IsUnsquared) (enough : tree.size ≤ fuel) :
    (evaluateTo controller fuel tree).Finishes (·.staysInRange = true) .empty
      (IsReducedTo tree) := by
  induction unsquared generalizing fuel with
  | factor factor => exact factor.evaluateTo enough
  | mul leftUnsquared rightUnsquared different leftIH rightIH =>
      obtain ⟨fuel, rfl⟩ := fuel_eq_succ enough
      rw [size_arith] at enough
      refine .ofTraced₂ (leftIH (by omega)) (rightIH (by omega)) ?_
      intro first second leftReduced rightReduced
      exact arithmetic_isReducedTo rfl leftUnsquared.isMonomial rightUnsquared.isMonomial
        leftReduced rightReduced fun _ => different
  | div leftUnsquared rightUnsquared leftIH rightIH =>
      obtain ⟨fuel, rfl⟩ := fuel_eq_succ enough
      rw [size_arith] at enough
      refine .ofTraced₂ (leftIH (by omega)) (rightIH (by omega)) ?_
      intro first second leftReduced rightReduced
      exact arithmetic_isReducedTo rfl leftUnsquared.isMonomial rightUnsquared.isMonomial
        leftReduced rightReduced nofun

end Simplification

end SymbolicAlgebra
