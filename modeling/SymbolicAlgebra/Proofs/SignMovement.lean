import SymbolicAlgebra.Proofs.CollectedMonomials

/-!
# Movement of signs

Operators between arranged monomials give arranged ones again.  A sign in front of an
operand is taken off first and put on the factor that the result reads first; a sign that
cannot be placed so is left in front of the whole monomial.

The engine at each depth relies on the depths below it: signs are moved by an arithmetic
that joins operands without a sign in front, and minus one is multiplied with by negation.
-/

namespace SymbolicAlgebra

open SymbolicAlgebra.Expr

/-! ## Operands without a sign in front -/

namespace Expr

/-- The tree has a minus sign in front. -/
def isNegation : Expr → Bool
  | .unary .neg _ _ => true
  | _ => false

end Expr

section Arranged

variable {kernel : Kernel} {allowed : Step → Prop} {signs more : Prop} {name : String}
  {exponent : ℤ} {value : ℚ} {tree left right : Expr} {mark : Mark} {op : ArithOp}

theorem Expr.IsLeafOf.isNegation {value : GaussianRational} (leaf : tree.IsLeafOf value) :
    tree.isNegation = false := by
  obtain ⟨_, _, _, rfl⟩ := leaf
  rfl

theorem Expr.IsPowerOf.isNegation (power : tree.IsPowerOf name exponent) :
    tree.isNegation = false := by
  cases power <;> rfl

theorem Expr.IsPowerOf.isNumber (power : tree.IsPowerOf name exponent) : tree.isNumber = false := by
  rw [Expr.isNumber, power.asNumber?]
  rfl

theorem Expr.IsMonomial.isNegation (monomial : tree.IsMonomial) : tree.isNegation = false := by
  cases monomial with
  | factor factor =>
      cases factor with
      | number leaf _ => exact leaf.isNegation
      | power power _ => exact power.isNegation
  | mul | div => rfl

theorem Expr.IsSignedFactor.isAtomic_of_unnegated (factor : tree.IsSignedFactor signs)
    (unnegated : tree.isNegation = false) : tree.IsAtomic := by
  cases factor with
  | number leaf _ _ => exact leaf.isAtomic
  | power power positive => exact power.isAtomic positive.ne'
  | negated => cases unnegated

theorem Expr.IsSignedFactor.collected (factor : tree.IsSignedFactor signs) (name : String) :
    Collected (tree.exponents name) := by
  have ofPower {tree : Expr} {other : String} {exponent : ℤ} (power : tree.IsPowerOf other exponent)
      (positive : 0 < exponent) : Collected (tree.exponents name) :=
    (power.isCollected positive.ne').collected name
  cases factor with
  | number leaf _ _ =>
      rw [leaf.exponents]
      exact .absent
  | power power positive => exact ofPower power positive
  | @negated _ _ operand _ power positive _ =>
      change Collected (operand.exponents name)
      exact ofPower power positive

theorem Expr.IsSignedFactor.isArranged (factor : tree.IsSignedFactor signs) :
    tree.IsArranged signs :=
  ⟨.product (.factor factor), factor.collected⟩

theorem Expr.IsSignedProduct.imp (product : tree.IsSignedProduct signs) (implies : signs → more) :
    tree.IsSignedProduct more := by
  induction product with
  | factor factor => exact .factor (factor.imp implies)
  | mul _ notUnit isTerm notOne ih => exact .mul ih notUnit isTerm notOne

theorem Expr.IsArranged.imp (arranged : tree.IsArranged signs) (implies : signs → more) :
    tree.IsArranged more := by
  refine ⟨?_, arranged.collected⟩
  cases arranged.isQuotient with
  | product product => exact .product (product.imp implies)
  | quotient top bottom notOne => exact .quotient (top.imp implies) bottom notOne
  | behind family factor notNumber leaf negative notMinusOne admitted =>
      exact .behind family (factor.imp implies) notNumber leaf negative notMinusOne
        (implies admitted)

theorem Expr.IsSignedFactor.factorCount (factor : tree.IsSignedFactor signs) :
    tree.factorCount = 1 := by
  cases factor with
  | number leaf _ _ =>
      obtain ⟨number, mark, _, rfl⟩ := leaf
      rfl
  | power power _ => cases power <;> rfl
  | negated power _ _ => cases power <;> rfl

theorem Expr.IsSignedFactor.fillsFactors (factor : tree.IsSignedFactor signs) :
    tree.FillsFactors allowed (IsSignedFactor signs) := by
  intro terms total lists
  rw [factor.factorCount]
  have pushed := lists.push factor
  cases factor with
  | number leaf _ _ =>
      obtain ⟨number, mark, _, rfl⟩ := leaf
      exact .pure pushed
  | power power positive =>
      rw [power.fillMultiplicative positive]
      exact .pure pushed
  | negated => exact .pure pushed

theorem Expr.IsSignedProduct.fillsFactors (product : tree.IsSignedProduct signs) :
    tree.FillsFactors allowed (IsSignedFactor signs) := by
  induction product with
  | factor factor => exact factor.fillsFactors
  | mul _ _ isTerm _ ih => exact ih.mul isTerm.isSigned.fillsFactors

theorem Expr.IsSignedQuotient.fillsFactors (quotient : tree.IsSignedQuotient signs) :
    tree.FillsFactors allowed (IsSignedFactor signs) := by
  cases quotient with
  | product product => exact product.fillsFactors
  | quotient top bottom _ => exact top.fillsFactors.div (bottom.imp False.elim).fillsFactors
  | @behind op _ _ _ _ family factor _ leaf negative _ admitted =>
      have number := IsSignedFactor.number leaf negative.ne fun _ => admitted
      cases op with
      | mul => exact factor.fillsFactors.mul number.fillsFactors
      | div => exact factor.fillsFactors.div number.fillsFactors
      | add | sub | pow => cases family

theorem Expr.IsSignedQuotient.isPlain (quotient : tree.IsSignedQuotient signs)
    (unnegated : tree.isNegation = false) : tree.IsPlain := by
  cases quotient with
  | product product =>
      cases product with
      | factor factor =>
          cases factor with
          | number leaf nonzero _ => exact leaf.isPlain nonzero
          | power power _ => exact power.isPlain
          | negated => cases unnegated
      | mul => exact isPlain_arith rfl
  | quotient => exact isPlain_arith rfl
  | behind family => exact isPlain_arith family

theorem not_isSignedFactor_arith (family : Chain.of? op = some .multiplicative) :
    ¬ (Expr.arith op left right mark).IsSignedFactor signs :=
  fun factor => (one_lt_factorCount_arith family).ne' factor.factorCount

theorem Expr.IsSignedQuotient.isFactor (quotient : tree.IsSignedQuotient signs)
    (single : tree.factorCount ≤ 1) : tree.IsSignedFactor signs := by
  cases quotient with
  | product product =>
      cases product with
      | factor factor => exact factor
      | mul => exact absurd single (one_lt_factorCount_arith rfl).not_ge
  | quotient => exact absurd single (one_lt_factorCount_arith rfl).not_ge
  | behind family => exact absurd single (one_lt_factorCount_arith family).not_ge

theorem Expr.IsSignedQuotient.isLeafOf_of_isConstant (quotient : tree.IsSignedQuotient signs)
    (constant : tree.isConstant = true) :
    ∃ value, value ≠ 0 ∧ (value < 0 → signs) ∧ tree.IsLeafOf ⟨value, 0⟩ := by
  cases quotient with
  | product product =>
      cases product with
      | factor factor =>
          cases factor with
          | number leaf nonzero admitted => exact ⟨_, nonzero, admitted, leaf⟩
          | power power _ => cases power <;> cases constant
          | negated => cases constant
      | mul => cases constant
  | quotient => cases constant
  | behind => cases constant

/-- Operands of which no sign has to be moved. -/
structure ArrangedOperands (signs : Prop) (op : ArithOp) (left right : Expr) : Prop where
  leftArranged : left.IsArranged signs
  rightQuotient : right.IsSignedQuotient signs
  rightCollected : op = .mul → ∀ name, Collected (right.exponents name)
  leftUnnegated : left.isNegation = false
  rightUnnegated : right.isNegation = false
  leftMinusOne : op = .mul → left.isMinusOne = false
  rightMinusOne : right.isMinusOne = false
  different : op = .mul → 1 < left.factorCount → 1 < right.factorCount → (left == right) = false

theorem ArrangedOperands.joinable (operands : ArrangedOperands signs op left right) :
    Joinable op left right where
  leftPlain := operands.leftArranged.isQuotient.isPlain operands.leftUnnegated
  rightPlain := operands.rightQuotient.isPlain operands.rightUnnegated
  leftMinusOne := operands.leftMinusOne
  rightMinusOne := operands.rightMinusOne
  different := operands.different

/-- Two factors, of which the second one is not negated, are a product or a quotient. -/
theorem Expr.IsSignedFactor.pair (leftFactor : left.IsSignedFactor signs)
    (rightFactor : right.IsSignedFactor signs) (family : Chain.of? op = some .multiplicative)
    (rightUnnegated : right.isNegation = false)
    (symbolic : left.isConstant = false ∨ right.isConstant = false)
    (leftUnit : op = .mul → left.isUnit = false) (rightUnit : right.isUnit = false) :
    (Expr.arith op left right mark).IsSignedQuotient signs := by
  obtain ⟨rightOne, rightMinusOne⟩ := Bool.or_eq_false_iff.mp rightUnit
  have ofTerm (isTerm : right.IsTerm) : (Expr.arith op left right mark).IsSignedQuotient signs := by
    cases op with
    | mul => exact .product (.mul (.factor leftFactor) (leftUnit rfl) isTerm rightOne)
    | div => exact .quotient (.factor leftFactor) (.factor isTerm.isSigned) rightOne
    | add | sub | pow => cases family
  cases rightFactor with
  | number leaf nonzero admitted =>
      rcases lt_or_gt_of_ne nonzero with negative | positive
      · have notNumber : left.isNumber = false := by
          cases leftFactor with
          | number otherLeaf _ _ =>
              obtain ⟨_, _, _, rfl⟩ := leaf
              obtain ⟨_, _, _, rfl⟩ := otherLeaf
              rcases symbolic with symbolic | symbolic <;> cases symbolic
          | power power _ => cases power <;> rfl
          | negated => rfl
        refine .behind family leftFactor notNumber leaf negative ?_ (admitted negative)
        exact mt leaf.isMinusOne_iff.mpr (Bool.eq_false_iff.mp rightMinusOne)
      · exact ofTerm (.number leaf positive)
  | power power positive => exact ofTerm (.power power positive)
  | negated => cases rightUnnegated

theorem ArrangedOperands.collectOrBuild_isArranged (kept : ∀ number, ¬ allowed (.inexact number))
    (raises : kernel.Raises allowed) (operands : ArrangedOperands signs op left right)
    (family : Chain.of? op = some .multiplicative)
    (symbolic : left.isConstant = false ∨ right.isConstant = false)
    (leftOne : op = .mul → left.isOne = false) (rightOne : right.isOne = false)
    (apart : ¬ SameVariable left right) :
    (collectOrBuild kernel op left right).Ensures allowed (IsArranged signs) := by
  have leftQuotient := operands.leftArranged.isQuotient
  refine collectOrBuild_ensures family leftQuotient.fillsFactors
    operands.rightQuotient.fillsFactors (collect_isArranged kept raises) ?_
  intro leftSingle rightSingle mark
  have leftFactor := leftQuotient.isFactor leftSingle
  have rightFactor := operands.rightQuotient.isFactor rightSingle
  constructor
  · refine leftFactor.pair rightFactor family operands.rightUnnegated symbolic ?_ ?_
    · exact fun product => Bool.or_eq_false_iff.mpr ⟨leftOne product, operands.leftMinusOne product⟩
    · exact Bool.or_eq_false_iff.mpr ⟨rightOne, operands.rightMinusOne⟩
  · have leftAtomic := leftFactor.isAtomic_of_unnegated operands.leftUnnegated
    have rightAtomic := rightFactor.isAtomic_of_unnegated operands.rightUnnegated
    exact leftAtomic.collected rightAtomic apart family

theorem Expr.IsPowerOrOne.isSignedFactor (power : tree.IsPowerOrOne name exponent)
    (nonneg : 0 ≤ exponent) : tree.IsSignedFactor signs := by
  rw [IsPowerOrOne] at power
  split at power
  · obtain ⟨mark, rfl⟩ := power
    exact IsTerm.isSigned (.number (isLeafOf_one mark) one_pos)
  · exact .power power (by omega)

theorem Expr.IsQuotientOf.isArranged {m n : ℤ} (quotient : tree.IsQuotientOf name m n) :
    tree.IsArranged signs := by
  refine ⟨?_, quotient.isCollected.collected⟩
  rw [IsQuotientOf] at quotient
  split at quotient
  · exact .product (.factor (quotient.isSignedFactor (by omega)))
  · obtain ⟨power, mark, isPower, rfl⟩ := quotient
    have one : (Expr.int 1).IsSignedFactor signs :=
      IsTerm.isSigned (.number (isLeafOf_one _) one_pos)
    exact .quotient (.factor one) (.factor (.power isPower (by omega))) isPower.isOne

theorem Expr.IsSignedQuotient.exponent_pos (quotient : tree.IsSignedQuotient signs)
    (power : tree.IsPowerOf name exponent) : 0 < exponent := by
  cases power with
  | var => exact one_pos
  | power =>
      cases quotient with
      | product product =>
          cases product with
          | factor factor =>
              cases factor with
              | number leaf _ _ =>
                  obtain ⟨_, _, _, impossible⟩ := leaf
                  cases impossible
              | power power positive =>
                  cases power
                  exact positive
      | behind family => cases family

theorem ArrangedOperands.powers (raises : kernel.Raises allowed)
    (operands : ArrangedOperands signs op left right)
    (family : Chain.of? op = some .multiplicative) (same : SameVariable left right) :
    (combine kernel op left right).Succeeds allowed (IsArranged signs) := by
  obtain ⟨name, m, n, leftPower, rightPower⟩ := same
  have leftPositive := operands.leftArranged.isQuotient.exponent_pos leftPower
  have rightPositive := operands.rightQuotient.exponent_pos rightPower
  cases op with
  | mul =>
      refine (combine_mul_powers raises leftPower rightPower).mono fun result power => ?_
      exact (power.isSignedFactor (by omega)).isArranged
  | div =>
      exact (combine_div_powers raises leftPower rightPower).mono fun result quotient =>
        quotient.isArranged
  | add | sub | pow => cases family

theorem ArrangedOperands.numbers (kept : ∀ number, ¬ allowed (.inexact number))
    (operands : ArrangedOperands signs op left right)
    (family : Chain.of? op = some .multiplicative) (leftConstant : left.isConstant = true)
    (rightConstant : right.isConstant = true) :
    (combine kernel op left right).Succeeds allowed (IsArranged signs) := by
  obtain ⟨p, leftNonzero, leftAdmitted, leftLeaf⟩ :=
    operands.leftArranged.isQuotient.isLeafOf_of_isConstant leftConstant
  obtain ⟨q, rightNonzero, rightAdmitted, rightLeaf⟩ :=
    operands.rightQuotient.isLeafOf_of_isConstant rightConstant
  refine (combine_numbers_leaf kept family leftLeaf rightLeaf leftNonzero rightNonzero).mono ?_
  rintro result ⟨value, nonzero, positive, leaf⟩
  refine IsSignedFactor.isArranged (.number leaf nonzero fun negative => ?_)
  by_contra unsigned
  have leftPositive := lt_of_le_of_ne (not_lt.mp (mt leftAdmitted unsigned)) leftNonzero.symm
  have rightPositive := lt_of_le_of_ne (not_lt.mp (mt rightAdmitted unsigned)) rightNonzero.symm
  exact absurd (positive leftPositive rightPositive) negative.not_gt

/-- An operator between arranged monomials without a sign in front gives an arranged one. -/
theorem ArrangedOperands.applyBinary_isArranged (kept : ∀ number, ¬ allowed (.inexact number))
    (raises : kernel.Raises allowed) (operands : ArrangedOperands signs op left right)
    (family : Chain.of? op = some .multiplicative) :
    (applyBinary kernel op left right).Ensures allowed (IsArranged signs) := by
  have one : (Expr.int 1).IsArranged signs :=
    IsSignedFactor.isArranged (IsTerm.isSigned (.number (isLeafOf_one _) one_pos))
  refine operands.joinable.applyBinary_ensures family (operands.numbers kept family)
    (operands.powers raises family) operands.leftArranged ?_ one
    (operands.collectOrBuild_isArranged kept raises family)
  exact fun product => ⟨operands.rightQuotient, operands.rightCollected product⟩

end Arranged

/-! ## Minus signs -/

namespace Expr

/-- An arranged monomial, or one with a minus sign in front. -/
inductive IsArrangedUpToSign : Expr → Prop where
  | plain {tree : Expr} : tree.IsArranged True → tree.isNegation = false →
      IsArrangedUpToSign tree
  | negated {operand : Expr} {mark : Mark} : operand.IsArranged True →
      operand.isNegation = false → operand.isNumber = false →
        IsArrangedUpToSign (.unary .neg operand mark)

end Expr

/-- The arithmetic below joins operands of which no sign has to be moved. -/
structure Kernel.Arranges (allowed : Step → Prop) (kernel : Kernel) : Prop where
  raises : kernel.Raises allowed
  binary : ∀ {signs : Prop} {op : ArithOp} {left right : Expr},
    Chain.of? op = some .multiplicative → ArrangedOperands signs op left right →
      (kernel.binary op left right).Ensures allowed (IsArranged signs)

/-- It also multiplies a number by a negated power. -/
structure Kernel.TakesSigns (allowed : Step → Prop) (kernel : Kernel) : Prop extends
    kernel.Arranges allowed where
  beforeNegated : ∀ {value : ℚ} {name : String} {exponent : ℤ} {leaf power : Expr} {mark : Mark},
    leaf.IsLeafOf ⟨value, 0⟩ → value ≠ 0 → value ≠ 1 → value ≠ -1 →
      power.IsPowerOf name exponent → 0 < exponent →
        (kernel.binary .mul leaf (.unary .neg power mark)).Ensures allowed (IsArranged True)

/-- It also negates. -/
structure Kernel.MovesSigns (allowed : Step → Prop) (kernel : Kernel) : Prop extends
    kernel.Arranges allowed where
  negate : ∀ {tree : Expr}, tree.IsArrangedUpToSign →
    (kernel.negate tree).Ensures allowed IsArrangedUpToSign

section Signs

variable {kernel : Kernel} {allowed : Step → Prop} {signs : Prop} {name : String}
  {exponent : ℤ} {value : ℚ} {tree leaf power left right top bottom : Expr} {mark : Mark}
  {op : ArithOp} {number : Number}

/-- Only a power of a variable has a sign in front. -/
theorem Expr.IsArranged.exists_power (arranged : tree.IsArranged signs)
    (sign : tree.isNegation = true) :
    ∃ name exponent power mark, power.IsPowerOf name exponent ∧ 0 < exponent ∧
      tree = .unary .neg power mark := by
  cases arranged.isQuotient with
  | product product =>
      cases product with
      | factor factor =>
          cases factor with
          | number leaf _ _ =>
              rw [leaf.isNegation] at sign
              cases sign
          | power power _ =>
              rw [power.isNegation] at sign
              cases sign
          | negated power positive _ => exact ⟨_, _, _, _, power, positive, rfl⟩
      | mul => cases sign
  | quotient => cases sign
  | behind => cases sign

theorem Expr.IsArranged.upToSign (arranged : tree.IsArranged True) : tree.IsArrangedUpToSign := by
  cases sign : tree.isNegation with
  | false => exact .plain arranged sign
  | true =>
      obtain ⟨_, _, _, _, power, positive, rfl⟩ := arranged.exists_power sign
      have operand : IsSignedFactor True _ := .power power positive
      exact .negated operand.isArranged power.isNegation power.isNumber

/-- Without signs nothing is in the way of a product with a single factor, or of a
quotient. -/
theorem Expr.IsArranged.operands (arranged : left.IsArranged False)
    (rightQuotient : right.IsSignedQuotient signs) (rightUnnegated : right.isNegation = false)
    (rightMinusOne : right.isMinusOne = false) (single : op = .mul → right.IsTerm) :
    ArrangedOperands signs op left right where
  leftArranged := arranged.imp False.elim
  rightQuotient := rightQuotient
  rightCollected product := by
    have factor : right.IsSignedFactor signs := (single product).isSigned
    exact factor.collected
  leftUnnegated := arranged.isCollected.isMonomial.isNegation
  rightUnnegated := rightUnnegated
  leftMinusOne _ := arranged.isCollected.isMonomial.isMinusOne
  rightMinusOne := rightMinusOne
  different product _ several := by
    have factor : right.IsSignedFactor signs := (single product).isSigned
    have count := factor.factorCount
    omega

/-- A number and a tree without a sign in front. -/
theorem Expr.IsLeafOf.operands (leaf : left.IsLeafOf ⟨value, 0⟩) (nonzero : value ≠ 0)
    (notMinusOne : value ≠ -1) (arranged : right.IsArranged True)
    (unnegated : right.isNegation = false) (rightMinusOne : right.isMinusOne = false) :
    ArrangedOperands True .mul left right := by
  have factor : left.IsSignedFactor True := .number leaf nonzero fun _ => trivial
  refine ⟨factor.isArranged, arranged.isQuotient, fun _ => arranged.collected, leaf.isNegation,
    unnegated, fun _ => ?_, rightMinusOne, fun _ several => ?_⟩
  · exact Bool.eq_false_iff.mpr (mt leaf.isMinusOne_iff.mp notMinusOne)
  · have count := factor.factorCount
    omega

/-! ### Taking signs off -/

/-- Of the first factor of a product a sign is taken off, if it is no number. -/
theorem Expr.IsSignedProduct.negated (kept : ∀ number, ¬ allowed (.inexact number))
    (arranges : kernel.Arranges allowed) (product : tree.IsSignedProduct signs) :
    (negated kernel tree).Ensures allowed (IsArranged False) := by
  induction product with
  | @factor tree factor =>
      have same : SymbolicAlgebra.negated kernel tree = withoutSign tree := by
        cases factor with
        | number leaf _ _ =>
            obtain ⟨_, _, _, rfl⟩ := leaf
            rfl
        | power power _ => cases power <;> rfl
        | negated => rfl
      rw [same]
      exact (factor.withoutSign_decides kept).ensures.mono fun result holds positive found =>
        (holds positive found).1.isSigned.isArranged
  | @mul left right mark _ _ isTerm notOne ih =>
      have single : right.IsSignedProduct False := .factor isTerm.isSigned
      have joins (positive : Expr) (arranged : positive.IsArranged False) :
          (kernel.binary .mul positive right).Ensures allowed (IsArranged False) :=
        arranges.binary rfl (arranged.operands (.product single) isTerm.isMonomial.isNegation
          isTerm.isMonomial.isMinusOne fun _ => isTerm)
      refine .orElse (.bind .guarded fun _ _ => .bind ih fun positive arranged => ?_) ?_
      · exact .lift (joins positive arranged)
      · cases isTerm with
        | number leaf _ =>
            obtain ⟨_, _, _, rfl⟩ := leaf
            exact .failure
        | power power _ => cases power <;> exact .failure

/-- A number in front of a negated power takes the sign. -/
theorem Kernel.Arranges.applyBinary_beforeNegated (kept : ∀ number, ¬ allowed (.inexact number))
    (arranges : kernel.Arranges allowed) (leaf : left.IsLeafOf ⟨value, 0⟩) (nonzero : value ≠ 0)
    (notOne : value ≠ 1) (notMinusOne : value ≠ -1) (isPower : power.IsPowerOf name exponent)
    (positive : 0 < exponent) :
    (applyBinary kernel .mul left (.unary .neg power mark)).Ensures allowed (IsArranged True) := by
  have plain := leaf.isPlain nonzero
  have leftOne := Bool.eq_false_iff.mpr (mt leaf.isOne_iff.mp notOne)
  have leftMinusOne := Bool.eq_false_iff.mpr (mt leaf.isMinusOne_iff.mp notMinusOne)
  have isTerm : power.IsTerm := .power isPower positive
  have factor : power.IsSignedFactor True := isTerm.isSigned
  obtain ⟨number, inner, represents, rfl⟩ := leaf
  have rules : combine kernel .mul (.number number inner) (.unary .neg power mark) =
      mulIdentities kernel (.number number inner) (.unary .neg power mark) :=
    combine_eq_identities ⟨plain.isError, rfl⟩ ⟨plain.asArray?, rfl⟩ (.inr rfl)
  have takes : (mulSigns kernel (.number number inner) (.unary .neg power mark)).Succeeds allowed
      (IsArranged True) := by
    refine .bind (.lift (negateNumber_opposite kept represents)) fun flipped opposite => .lift ?_
    exact arranges.binary rfl (opposite.operands (neg_ne_zero.mpr nonzero)
      (fun equal => notOne (neg_inj.mp equal)) factor.isArranged isTerm.isMonomial.isNegation
        isTerm.isMonomial.isMinusOne)
  rw [applyBinary, rules, mulIdentities_eq_signs ⟨plain.isZero, rfl⟩ ⟨leftOne, rfl⟩
    ⟨leftMinusOne, rfl⟩]
  exact takes.orElse.run_match fun _ arranged => .pure arranged

/-! ### Negation -/

/-- A number in a product of two takes the sign. -/
theorem Kernel.TakesSigns.negateByForm_number (kept : ∀ number, ¬ allowed (.inexact number))
    (takes : kernel.TakesSigns allowed) (represents : number.Represents ⟨value, 0⟩)
    (nonzero : value ≠ 0) (notOne : value ≠ 1) (notMinusOne : value ≠ -1)
    (arranged : tree.IsArranged True) (treeMinusOne : tree.isMinusOne = false) :
    (do
      let flipped ← negateNumber number
      kernel.binary .mul flipped tree : Rule Expr).Succeeds allowed (IsArranged True) := by
  refine .bind (.lift (negateNumber_opposite kept represents)) fun flipped opposite => .lift ?_
  have flippedNonzero := neg_ne_zero.mpr nonzero
  have flippedNotMinusOne : -value ≠ -1 := fun equal => notOne (neg_inj.mp equal)
  have flippedNotOne : -value ≠ 1 := fun equal => notMinusOne (neg_eq_iff_eq_neg.mp equal)
  cases sign : tree.isNegation with
  | false =>
      exact takes.binary rfl (opposite.operands flippedNonzero flippedNotMinusOne arranged sign
        treeMinusOne)
  | true =>
      obtain ⟨_, _, _, _, power, positive, rfl⟩ := arranged.exists_power sign
      exact takes.beforeNegated opposite flippedNonzero flippedNotOne flippedNotMinusOne power
        positive

theorem isMinusOne_of_asNumber? (symbolic : tree.asNumber? = none) : tree.isMinusOne = false := by
  rw [isMinusOne, symbolic]
  rfl

theorem Expr.IsSignedProduct.leaf_or_none (product : tree.IsSignedProduct signs) :
    (∃ value, value ≠ 0 ∧ tree.IsLeafOf ⟨value, 0⟩) ∨ tree.asNumber? = none := by
  cases product with
  | factor factor =>
      cases factor with
      | number leaf nonzero _ => exact .inl ⟨_, nonzero, leaf⟩
      | power power _ => exact .inr power.asNumber?
      | negated => exact .inr rfl
  | mul => exact .inr rfl

/-- A number behind a factor or a product takes the sign. -/
theorem Kernel.TakesSigns.negateByForm_behind (kept : ∀ number, ¬ allowed (.inexact number))
    (takes : kernel.TakesSigns allowed) (arranged : left.IsArranged True)
    (symbolic : left.asNumber? = none) (leaf : right.IsLeafOf ⟨value, 0⟩) (nonzero : value ≠ 0)
    (notOne : value ≠ 1) (notMinusOne : value ≠ -1) :
    (negateByForm kernel (.arith .mul left right mark)).Succeeds allowed (IsArranged True) := by
  obtain ⟨number, inner, represents, rfl⟩ := leaf
  have behind : (Expr.number number inner).asNumber? = some number := rfl
  rw [negateByForm, symbolic, behind]
  exact takes.negateByForm_number kept represents nonzero notOne notMinusOne arranged
    (isMinusOne_of_asNumber? symbolic)

/-- Negation of a product that no factor is left out of. -/
theorem Expr.IsArranged.applyNegation_mul (kept : ∀ number, ¬ allowed (.inexact number))
    (takes : kernel.TakesSigns allowed)
    (arranged : (Expr.arith .mul left right mark).IsArranged True) :
    (applyNegation kernel (.arith .mul left right mark)).Ensures allowed IsArrangedUpToSign := by
  have builds (outer : Mark) :
      (Expr.unary .neg (.arith .mul left right mark) outer).IsArrangedUpToSign :=
    .negated arranged rfl rfl
  have found {rule : Rule Expr} (succeeds : rule.Succeeds allowed (IsArranged True)) :
      (rule <|> negated kernel (.arith .mul left right mark)).Ensures allowed
        IsArrangedUpToSign :=
    Rule.Succeeds.ensures (.orElse (succeeds.mono fun _ => (·.upToSign)))
  refine applyNegation_ensures rfl rfl rfl rfl rfl ?_ builds
  have ⟨quotient, collected⟩ := arranged
  cases quotient with
  | product product =>
      have negates := product.negated kept takes.toArranges
      cases product with
      | factor factor => exact absurd factor (not_isSignedFactor_arith rfl)
      | mul leftProduct notUnit isTerm notOne =>
          have factor : right.IsSignedFactor True := isTerm.isSigned
          rcases leftProduct.leaf_or_none with ⟨value, nonzero, leaf⟩ | symbolic
          · obtain ⟨notOne, notMinusOne⟩ :=
              not_or.mp (mt leaf.isUnit_iff.mpr (Bool.eq_false_iff.mp notUnit))
            obtain ⟨number, inner, represents, rfl⟩ := leaf
            exact found (takes.negateByForm_number kept represents nonzero notOne notMinusOne
              factor.isArranged isTerm.isMonomial.isMinusOne)
          cases isTerm with
          | @number value _ leaf positive =>
              have valueNotOne := mt leaf.isOne_iff.mpr (Bool.eq_false_iff.mp notOne)
              have notMinusOne : value ≠ -1 := by linarith
              have leftArranged : left.IsArranged True := by
                refine ⟨.product leftProduct, fun name => ?_⟩
                have whole := collected name
                rwa [leaf.exponents_mul] at whole
              exact found (takes.negateByForm_behind kept leftArranged symbolic leaf positive.ne'
                valueNotOne notMinusOne)
          | power power _ =>
              have noForm : negateByForm kernel (.arith .mul left right mark) = failure := by
                rw [negateByForm, symbolic, power.asNumber?]
              rw [noForm]
              refine .orElse .failure (negates.mono fun _ holds result found => ?_)
              exact ((holds result found).imp False.elim).upToSign
  | @behind _ value _ _ _ _ factor notNumber leaf negative notMinusOne _ =>
      have symbolic : left.asNumber? = none :=
        Option.not_isSome_iff_eq_none.mp (Bool.eq_false_iff.mp notNumber)
      have notOne : value ≠ 1 := by linarith
      exact found (takes.negateByForm_behind kept factor.isArranged symbolic leaf negative.ne
        notOne notMinusOne)

/-- Negation of a quotient that no factor is left out of. -/
theorem Expr.IsArranged.applyNegation_div (kept : ∀ number, ¬ allowed (.inexact number))
    (takes : kernel.TakesSigns allowed)
    (arranged : (Expr.arith .div left right mark).IsArranged True) :
    (applyNegation kernel (.arith .div left right mark)).Ensures allowed IsArrangedUpToSign := by
  have divides (product : left.IsSignedProduct True) (rightQuotient : right.IsSignedQuotient True)
      (unnegated : right.isNegation = false) (notMinusOne : right.isMinusOne = false) :
      (negated kernel (.arith .div left right mark)).Ensures allowed IsArrangedUpToSign := by
    refine .bind .guarded fun _ _ => .bind (product.negated kept takes.toArranges) ?_
    intro positive arranged
    have operands : ArrangedOperands True .div positive right :=
      arranged.operands rightQuotient unnegated notMinusOne nofun
    exact .lift ((takes.binary rfl operands).mono fun _ => (·.upToSign))
  refine applyNegation_ensures rfl rfl rfl rfl rfl (.orElse .failure ?_)
    fun outer => .negated arranged rfl rfl
  cases arranged.isQuotient with
  | product product =>
      cases product with
      | factor factor => exact absurd factor (not_isSignedFactor_arith rfl)
  | quotient top bottom notOne =>
      refine divides top (.product (bottom.imp False.elim)) ?_ ?_
      · exact bottom.isMonomial.isNegation
      · exact bottom.isMonomial.isMinusOne
  | behind _ factor _ leaf negative notMinusOne _ =>
      have number := IsSignedFactor.number leaf negative.ne fun _ => trivial
      refine divides (.factor factor) (.product (.factor number)) ?_ ?_
      · obtain ⟨_, _, _, rfl⟩ := leaf
        rfl
      · exact Bool.eq_false_iff.mpr (mt leaf.isMinusOne_iff.mp notMinusOne)

/-- Unary minus keeps monomials arranged up to a sign. -/
theorem applyNegation_upToSign (kept : ∀ number, ¬ allowed (.inexact number))
    (takes : kernel.TakesSigns allowed) (upToSign : tree.IsArrangedUpToSign) :
    (applyNegation kernel tree).Ensures allowed IsArrangedUpToSign := by
  cases upToSign with
  | negated arranged unnegated _ => exact .pure (.plain arranged unnegated)
  | plain arranged unnegated =>
      have ofFactor (factor : tree.IsSignedFactor True) :
          (applyNegation kernel tree).Ensures allowed IsArrangedUpToSign :=
        (factor.negate (Kernel.above_raises kept kernel) trivial).mono fun _ negation =>
          negation.isFactor.isArranged.upToSign
      cases arranged.isQuotient with
      | product product =>
          cases product with
          | factor factor => exact ofFactor factor
          | mul => exact arranged.applyNegation_mul kept takes
      | quotient => exact arranged.applyNegation_div kept takes
      | @behind op _ _ _ _ family =>
          cases op with
          | mul => exact arranged.applyNegation_mul kept takes
          | div => exact arranged.applyNegation_div kept takes
          | add | sub | pow => cases family

/-! ### Putting a sign on the first factor -/

theorem Expr.IsSignedFactor.negateLeadingFactor (raises : kernel.Raises allowed)
    (factor : tree.IsSignedFactor True) :
    (negateLeadingFactor kernel tree).Ensures allowed (IsNegationOf True tree) := by
  have same : SymbolicAlgebra.negateLeadingFactor kernel tree = kernel.negate tree := by
    cases factor with
    | number leaf _ _ =>
        obtain ⟨_, _, _, rfl⟩ := leaf
        rfl
    | power power _ => cases power <;> rfl
    | negated => rfl
  rw [same]
  exact factor.negate raises trivial

theorem Expr.IsSignedProduct.negateLeadingFactor (raises : kernel.Raises allowed)
    (product : tree.IsSignedProduct True) :
    (negateLeadingFactor kernel tree).Ensures allowed fun result =>
      result.IsSignedProduct True ∧ result.isUnit = tree.isUnit ∧
        ∀ name, result.exponents name = tree.exponents name := by
  induction product with
  | factor factor =>
      refine (factor.negateLeadingFactor raises).mono fun result negation => ?_
      exact ⟨.factor negation.isFactor, negation.isUnit, negation.exponents⟩
  | @mul left right _ _ notUnit isTerm notOne ih =>
      refine .bind ih fun result negation => .make fun mark => ?_
      obtain ⟨product, isUnit, exponents⟩ := negation
      refine ⟨.mul product (isUnit.trans notUnit) isTerm notOne, rfl, fun name => ?_⟩
      exact congrArg (· ++ right.exponents name) (exponents name)

/-- The sign of an arranged monomial is that of its first factor. -/
theorem Expr.IsArranged.negateLeadingFactor (raises : kernel.Raises allowed)
    (arranged : tree.IsArranged True) :
    (negateLeadingFactor kernel tree).Ensures allowed (IsArranged True) := by
  obtain ⟨quotient, collected⟩ := arranged
  cases quotient with
  | product product =>
      refine (product.negateLeadingFactor raises).mono fun result negation => ?_
      exact ⟨.product negation.1, fun name => negation.2.2 name ▸ collected name⟩
  | @quotient top bottom _ topProduct bottomProduct notOne =>
      refine .bind (topProduct.negateLeadingFactor raises) fun result negation => .make ?_
      refine fun mark => ⟨.quotient negation.1 bottomProduct notOne, fun name => ?_⟩
      have whole : Collected (top.exponents name ++ (bottom.exponents name).map (- ·)) :=
        collected name
      rwa [← negation.2.2 name] at whole
  | @behind op _ left right _ family factor notNumber leaf negative notMinusOne admitted =>
      have moves (mark : Mark) {first : Expr} (negation : IsNegationOf True left first) :
          (Expr.arith op first right mark).IsArranged True := by
        have number := negation.isNumber.trans notNumber
        refine ⟨.behind family negation.isFactor number leaf negative notMinusOne admitted, ?_⟩
        intro name
        have whole := collected name
        cases op with
        | mul | div => rwa [Expr.exponents, ← negation.exponents name] at whole
        | add | sub | pow => cases family
      have negates := factor.negateLeadingFactor raises
      cases op with
      | mul => exact .bind negates fun first negation => .make fun mark => moves mark negation
      | div => exact .bind negates fun first negation => .make fun mark => moves mark negation
      | add | sub | pow => cases family

/-! ### Operators -/

namespace Expr

/-- The tree without a minus sign in front. -/
def unsigned : Expr → Expr
  | .unary .neg operand _ => operand
  | tree => tree

end Expr

theorem unsigned_of_unnegated (unnegated : tree.isNegation = false) : tree.unsigned = tree := by
  unfold unsigned
  split
  · cases unnegated
  · rfl

/-- Monomials that are arranged up to a sign, and are not to be joined where they should not. -/
structure SignedOperands (op : ArithOp) (left right : Expr) : Prop where
  leftUpToSign : left.IsArrangedUpToSign
  rightUpToSign : right.IsArrangedUpToSign
  different : op = .mul → 1 < left.factorCount → 1 < right.factorCount →
    (left.unsigned == right.unsigned) = false
  alone : op = .mul → left.isNegation = true → right.isNumber = true → left.factorCount ≤ 1

/-- Neither an error nor an array nor zero. -/
theorem Expr.IsArrangedUpToSign.isOrdinary (upToSign : tree.IsArrangedUpToSign) :
    tree.isError = false ∧ tree.asArray? = none ∧ tree.isZero = false := by
  cases upToSign with
  | plain arranged unnegated =>
      have plain := arranged.isQuotient.isPlain unnegated
      exact ⟨plain.isError, plain.asArray?, plain.isZero⟩
  | negated => exact ⟨rfl, rfl, rfl⟩

theorem Expr.IsArrangedUpToSign.isLeafOf_of_isConstant (upToSign : tree.IsArrangedUpToSign)
    (constant : tree.isConstant = true) : ∃ value, value ≠ 0 ∧ tree.IsLeafOf ⟨value, 0⟩ := by
  cases upToSign with
  | plain arranged _ =>
      obtain ⟨value, nonzero, _, leaf⟩ := arranged.isQuotient.isLeafOf_of_isConstant constant
      exact ⟨value, nonzero, leaf⟩
  | negated => cases constant

theorem SignedOperands.combine_eq (operands : SignedOperands op left right)
    (symbolic : left.isConstant = false ∨ right.isConstant = false) :
    combine kernel op left right = identities kernel op left right := by
  have leftPlain := operands.leftUpToSign.isOrdinary
  have rightPlain := operands.rightUpToSign.isOrdinary
  exact combine_eq_identities ⟨leftPlain.1, rightPlain.1⟩ ⟨leftPlain.2.1, rightPlain.2.1⟩ symbolic

/-- Multiplying and dividing by minus one is negation. -/
theorem SignedOperands.combine_minusOne (kept : ∀ number, ¬ allowed (.inexact number))
    (moves : kernel.MovesSigns allowed) (operands : SignedOperands op left right)
    (family : Chain.of? op = some .multiplicative)
    (minusOne : op = .mul ∧ left.isMinusOne = true ∨ right.isMinusOne = true) :
    (combine kernel op left right).Succeeds allowed IsArrangedUpToSign := by
  obtain ⟨_, _, leftZero⟩ := operands.leftUpToSign.isOrdinary
  obtain ⟨_, _, rightZero⟩ := operands.rightUpToSign.isOrdinary
  have leftNegates := moves.negate operands.leftUpToSign
  have rightNegates := moves.negate operands.rightUpToSign
  by_cases constants : left.isConstant = true ∧ right.isConstant = true
  · obtain ⟨p, leftNonzero, leftLeaf⟩ := operands.leftUpToSign.isLeafOf_of_isConstant constants.1
    obtain ⟨q, rightNonzero, rightLeaf⟩ := operands.rightUpToSign.isLeafOf_of_isConstant constants.2
    refine (combine_numbers_leaf kept family leftLeaf rightLeaf leftNonzero rightNonzero).mono ?_
    rintro result ⟨value, nonzero, _, leaf⟩
    exact (IsSignedFactor.number leaf nonzero fun _ => trivial).isArranged.upToSign
  rw [operands.combine_eq (by simpa [or_iff_not_imp_left] using constants)]
  cases op with
  | mul =>
      simp only [identities, mulIdentities, leftZero, rightZero, Bool.false_eq_true, if_false]
      split
      · exact .pure operands.rightUpToSign
      · split
        · exact .pure operands.leftUpToSign
        · split
          · exact .lift rightNegates
          · rename_i notMinusOne
            rw [if_pos (minusOne.resolve_left fun minusOne => notMinusOne minusOne.2)]
            exact .lift leftNegates
  | div =>
      have minusOne : right.isMinusOne = true := by
        rcases minusOne with ⟨impossible, _⟩ | minusOne
        · cases impossible
        · exact minusOne
      simp only [identities, divIdentities, minusOne, if_true]
      split
      · exact .pure operands.leftUpToSign
      · exact .lift leftNegates
  | add | sub | pow => cases family

theorem isConstant_of_isNegation (sign : tree.isNegation = true) : tree.isConstant = false := by
  cases tree with
  | unary => rfl
  | _ => cases sign

theorem eq_number_of_isNumber (isNumber : tree.isNumber = true) :
    ∃ number mark, tree = .number number mark := by
  cases tree with
  | number number mark => exact ⟨number, mark, rfl⟩
  | _ => cases isNumber

theorem isMinusOne_of_isNumber_eq_false (notNumber : tree.isNumber = false) : tree.isMinusOne = false :=
  isMinusOne_of_asNumber? (Option.not_isSome_iff_eq_none.mp (Bool.eq_false_iff.mp notNumber))

/-- Operands are joined without their signs, and the result takes the sign. -/
theorem ArrangedOperands.joins_and_negates (arranges : kernel.Arranges allowed)
    (operands : ArrangedOperands True op left right)
    (family : Chain.of? op = some .multiplicative) :
    (do
      let joined ← kernel.binary op left right
      negateLeadingFactor kernel joined : Rule Expr).Succeeds allowed IsArrangedUpToSign :=
  .bind (.lift (arranges.binary family operands)) fun _ arranged =>
    .lift ((arranged.negateLeadingFactor arranges.raises).mono fun _ => (·.upToSign))

theorem ArrangedOperands.mulSigns_both {inner outer : Mark} (arranges : kernel.Arranges allowed)
    (operands : ArrangedOperands True .mul left right) :
    (mulSigns kernel (.unary .neg left inner) (.unary .neg right outer)).Succeeds allowed
      IsArrangedUpToSign :=
  .lift ((arranges.binary rfl operands).mono fun _ => (·.upToSign))

theorem ArrangedOperands.mulSigns_left (arranges : kernel.Arranges allowed)
    (operands : ArrangedOperands True .mul left right) (notNumber : right.isNumber = false) :
    (mulSigns kernel (.unary .neg left mark) right).Succeeds allowed IsArrangedUpToSign := by
  have joins := operands.joins_and_negates arranges rfl
  rcases operands.joinable.rightPlain.hasBase.isUnnegated with isNumber | isVar | isArith
  · obtain ⟨_, _, rfl⟩ := isNumber
    cases notNumber
  · obtain ⟨_, _, rfl⟩ := isVar
    exact joins
  · obtain ⟨_, _, _, _, rfl⟩ := isArith
    exact joins

/-- A number in front takes the sign at once. -/
theorem ArrangedOperands.mulSigns_right (kept : ∀ number, ¬ allowed (.inexact number))
    (arranges : kernel.Arranges allowed) (operands : ArrangedOperands True .mul left right)
    (notOne : left.isOne = false) :
    (mulSigns kernel left (.unary .neg right mark)).Succeeds allowed IsArrangedUpToSign := by
  have joins := operands.joins_and_negates arranges rfl
  rcases operands.joinable.leftPlain.hasBase.isUnnegated with isNumber | isVar | isArith
  · obtain ⟨number, inner, rfl⟩ := isNumber
    obtain ⟨value, nonzero, _, leaf⟩ :=
      operands.leftArranged.isQuotient.isLeafOf_of_isConstant rfl
    have valueNotOne := mt leaf.isOne_iff.mpr (Bool.eq_false_iff.mp notOne)
    have arranged : right.IsArranged True := ⟨operands.rightQuotient, operands.rightCollected rfl⟩
    obtain ⟨_, _, represents, same⟩ := leaf
    cases same
    refine .bind (.lift (negateNumber_opposite kept represents)) fun flipped opposite => .lift ?_
    have flippedOperands := opposite.operands (neg_ne_zero.mpr nonzero)
      (fun equal => valueNotOne (neg_inj.mp equal)) arranged operands.rightUnnegated
        operands.rightMinusOne
    exact (arranges.binary rfl flippedOperands).mono fun _ => (·.upToSign)
  · obtain ⟨_, _, rfl⟩ := isVar
    exact joins
  · obtain ⟨_, _, _, _, rfl⟩ := isArith
    exact joins

theorem ArrangedOperands.divSigns (arranges : kernel.Arranges allowed)
    (operands : ArrangedOperands True .div left right) (inner outer : Mark) :
    (divSigns kernel (.unary .neg left inner) (.unary .neg right outer)).Succeeds allowed
        IsArrangedUpToSign ∧
      (divSigns kernel (.unary .neg left inner) right).Succeeds allowed IsArrangedUpToSign ∧
        (divSigns kernel left (.unary .neg right outer)).Succeeds allowed IsArrangedUpToSign := by
  have joins := operands.joins_and_negates arranges rfl
  refine ⟨?_, ?_, ?_⟩
  · exact .lift ((arranges.binary rfl operands).mono fun _ => (·.upToSign))
  · rcases operands.joinable.rightPlain.hasBase.isUnnegated with
      ⟨_, _, rfl⟩ | ⟨_, _, rfl⟩ | ⟨_, _, _, _, rfl⟩
    all_goals exact joins
  · rcases operands.joinable.leftPlain.hasBase.isUnnegated with
      ⟨_, _, rfl⟩ | ⟨_, _, rfl⟩ | ⟨_, _, _, _, rfl⟩
    all_goals exact joins

/-- A negated power in front of a number keeps its sign. -/
theorem applyBinary_behindNegated (kept : ∀ number, ¬ allowed (.inexact number))
    (raises : kernel.Raises allowed) {inner : Mark} (arranged : left.IsArranged True)
    (unnegated : left.isNegation = false) (notNumber : left.isNumber = false)
    (single : left.factorCount ≤ 1) (leaf : right.IsLeafOf ⟨value, 0⟩) (nonzero : value ≠ 0)
    (notUnit : right.isUnit = false) :
    (collectOrBuild kernel .mul (.unary .neg left inner) right).Ensures allowed
      IsArrangedUpToSign := by
  have isNegated : (Expr.unary .neg left inner).IsSignedFactor True := by
    cases arranged.isQuotient.isFactor single with
    | number leaf _ _ =>
        obtain ⟨_, _, _, rfl⟩ := leaf
        cases notNumber
    | power power positive => exact .negated power positive trivial
    | negated => cases unnegated
  have number : right.IsSignedFactor True := .number leaf nonzero fun _ => trivial
  refine collectOrBuild_ensures rfl isNegated.fillsFactors number.fillsFactors ?_ ?_
  · intro terms upSigned downSigned
    exact (collect_isArranged kept raises upSigned downSigned).mono fun _ => (·.upToSign)
  · intro _ _ mark
    have pair : (Expr.arith .mul (.unary .neg left inner) right mark).IsArranged True := by
      constructor
      · refine isNegated.pair number rfl ?_ (.inl rfl) (fun _ => rfl) notUnit
        obtain ⟨_, _, _, rfl⟩ := leaf
        rfl
      · intro name
        rw [leaf.exponents_mul]
        exact isNegated.collected name
    exact pair.upToSign

/-- The operands without a sign in front. -/
theorem SignedOperands.unsigned (operands : SignedOperands op left right)
    (leftMinusOne : op = .mul → left.isMinusOne = false)
    (rightMinusOne : right.isMinusOne = false) :
    ArrangedOperands True op left.unsigned right.unsigned := by
  have bare {tree : Expr} (upToSign : tree.IsArrangedUpToSign) :
      tree.unsigned.IsArranged True ∧ tree.unsigned.isNegation = false ∧
        (tree.isMinusOne = false → tree.unsigned.isMinusOne = false) ∧
          tree.unsigned.factorCount = tree.factorCount := by
    cases upToSign with
    | plain arranged unnegated =>
        rw [unsigned_of_unnegated unnegated]
        exact ⟨arranged, unnegated, id, rfl⟩
    | negated arranged unnegated notNumber =>
        exact ⟨arranged, unnegated, fun _ => isMinusOne_of_isNumber_eq_false notNumber, rfl⟩
  obtain ⟨leftArranged, leftUnnegated, leftKeeps, leftCount⟩ := bare operands.leftUpToSign
  obtain ⟨rightArranged, rightUnnegated, rightKeeps, rightCount⟩ := bare operands.rightUpToSign
  refine ⟨leftArranged, rightArranged.isQuotient, fun _ => rightArranged.collected, leftUnnegated,
    rightUnnegated, fun product => leftKeeps (leftMinusOne product), rightKeeps rightMinusOne, ?_⟩
  rw [leftCount, rightCount]
  exact operands.different

/-- A product of which an operand has a sign in front. -/
theorem SignedOperands.applyBinary_mul (kept : ∀ number, ¬ allowed (.inexact number))
    (moves : kernel.MovesSigns allowed) (operands : SignedOperands .mul left right)
    (leftMinusOne : left.isMinusOne = false) (rightMinusOne : right.isMinusOne = false)
    (signed : left.isNegation = true ∨ right.isNegation = true) :
    (applyBinary kernel .mul left right).Ensures allowed IsArrangedUpToSign := by
  obtain ⟨_, _, leftZero⟩ := operands.leftUpToSign.isOrdinary
  obtain ⟨_, _, rightZero⟩ := operands.rightUpToSign.isOrdinary
  have unsigned := operands.unsigned (fun _ => leftMinusOne) rightMinusOne
  have symbolic : left.isConstant = false ∨ right.isConstant = false :=
    signed.imp isConstant_of_isNegation isConstant_of_isNegation
  by_cases one : left.isOne = true ∨ right.isOne = true
  · rw [applyBinary, operands.combine_eq symbolic]
    exact (mulIdentities_neutral leftZero rightZero one operands.leftUpToSign
      operands.rightUpToSign).run_match fun _ holds => .pure holds
  rw [not_or, Bool.not_eq_true, Bool.not_eq_true] at one
  have rules : combine kernel .mul left right =
      (mulSigns kernel left right <|> mulPowers kernel left right) :=
    (operands.combine_eq symbolic).trans
      (mulIdentities_eq_signs ⟨leftZero, rightZero⟩ one ⟨leftMinusOne, rightMinusOne⟩)
  have found (succeeds : (mulSigns kernel left right).Succeeds allowed IsArrangedUpToSign) :
      (applyBinary kernel .mul left right).Ensures allowed IsArrangedUpToSign := by
    rw [applyBinary, rules]
    exact succeeds.orElse.run_match fun _ holds => .pure holds
  have alone := operands.alone rfl
  cases operands.leftUpToSign with
  | plain leftArranged leftUnnegated =>
      rw [unsigned_of_unnegated leftUnnegated] at unsigned
      cases operands.rightUpToSign with
      | plain _ rightUnnegated => simp [leftUnnegated, rightUnnegated] at signed
      | negated => exact found (unsigned.mulSigns_right kept moves.toArranges one.1)
  | negated leftArranged leftUnnegated leftNotNumber =>
      cases operands.rightUpToSign with
      | negated => exact found (unsigned.mulSigns_both moves.toArranges)
      | plain rightArranged rightUnnegated =>
          rw [unsigned_of_unnegated rightUnnegated] at unsigned
          cases number : right.isNumber with
          | false => exact found (unsigned.mulSigns_left moves.toArranges number)
          | true =>
              obtain ⟨value, inner, rfl⟩ := eq_number_of_isNumber number
              obtain ⟨value, nonzero, leaf⟩ := operands.rightUpToSign.isLeafOf_of_isConstant rfl
              have fails : (failure <|> failure : Rule Expr).Ensures allowed fun _ => False :=
                .orElse .failure .failure
              rw [applyBinary, rules]
              refine fails.run_none ?_
              exact applyBinary_behindNegated kept moves.raises leftArranged leftUnnegated
                leftNotNumber (alone rfl rfl) leaf nonzero
                (Bool.or_eq_false_iff.mpr ⟨one.2, rightMinusOne⟩)

/-- A quotient of which an operand has a sign in front. -/
theorem SignedOperands.applyBinary_div (moves : kernel.MovesSigns allowed)
    (operands : SignedOperands .div left right) (rightMinusOne : right.isMinusOne = false)
    (signed : left.isNegation = true ∨ right.isNegation = true) :
    (applyBinary kernel .div left right).Ensures allowed IsArrangedUpToSign := by
  obtain ⟨_, _, leftZero⟩ := operands.leftUpToSign.isOrdinary
  have one : (Expr.int 1).IsArrangedUpToSign :=
    (IsSignedFactor.isArranged (IsTerm.isSigned (.number (isLeafOf_one _) one_pos))).upToSign
  have symbolic : left.isConstant = false ∨ right.isConstant = false :=
    signed.imp isConstant_of_isNegation isConstant_of_isNegation
  have divides : (divSigns kernel left right).Succeeds allowed IsArrangedUpToSign ∧
      tangentRule left right = failure := by
    have unsigned := operands.unsigned nofun rightMinusOne
    cases operands.leftUpToSign with
    | plain _ leftUnnegated =>
        rw [unsigned_of_unnegated leftUnnegated] at unsigned
        have leftShape := unsigned.joinable.leftPlain.hasBase.isUnnegated
        cases operands.rightUpToSign with
        | plain _ rightUnnegated => simp [leftUnnegated, rightUnnegated] at signed
        | @negated _ outer =>
            refine ⟨(unsigned.divSigns moves.toArranges outer outer).2.2, ?_⟩
            rcases leftShape with ⟨_, _, rfl⟩ | ⟨_, _, rfl⟩ | ⟨_, _, _, _, rfl⟩
            all_goals rfl
    | @negated _ inner =>
        cases operands.rightUpToSign with
        | plain _ rightUnnegated =>
            rw [unsigned_of_unnegated rightUnnegated] at unsigned
            exact ⟨(unsigned.divSigns moves.toArranges inner inner).2.1, rfl⟩
        | @negated _ outer => exact ⟨(unsigned.divSigns moves.toArranges inner outer).1, rfl⟩
  have found : (identities kernel .div left right).Succeeds allowed IsArrangedUpToSign := by
    simp only [identities, divIdentities, leftZero, rightMinusOne, divides.2, Bool.false_and,
      Bool.false_eq_true, if_false]
    split
    · exact .pure operands.leftUpToSign
    · split
      · exact .pure one
      · exact .failure_orElse rfl divides.1.orElse
  rw [applyBinary, operands.combine_eq symbolic]
  exact found.run_match fun _ holds => .pure holds

/-- An operator between monomials that are arranged up to a sign gives such a monomial. -/
theorem SignedOperands.applyBinary_upToSign (kept : ∀ number, ¬ allowed (.inexact number))
    (moves : kernel.MovesSigns allowed) (operands : SignedOperands op left right)
    (family : Chain.of? op = some .multiplicative) :
    (applyBinary kernel op left right).Ensures allowed IsArrangedUpToSign := by
  by_cases minusOne : op = .mul ∧ left.isMinusOne = true ∨ right.isMinusOne = true
  · exact (operands.combine_minusOne kept moves family minusOne).run_match fun _ holds =>
      .pure holds
  rw [not_or, not_and] at minusOne
  have leftMinusOne (product : op = .mul) := Bool.eq_false_iff.mpr (minusOne.1 product)
  have rightMinusOne := Bool.eq_false_iff.mpr minusOne.2
  by_cases signed : left.isNegation = true ∨ right.isNegation = true
  · cases op with
    | mul =>
        exact operands.applyBinary_mul kept moves (leftMinusOne rfl) rightMinusOne signed
    | div => exact operands.applyBinary_div moves rightMinusOne signed
    | add | sub | pow => cases family
  · rw [not_or, Bool.not_eq_true, Bool.not_eq_true] at signed
    have unsigned := operands.unsigned leftMinusOne rightMinusOne
    rw [unsigned_of_unnegated signed.1, unsigned_of_unnegated signed.2] at unsigned
    exact (unsigned.applyBinary_isArranged kept moves.raises family).mono fun _ => (·.upToSign)

/-! ### The engine -/

theorem Kernel.ofDepth_arranges (kept : ∀ number, ¬ allowed (.inexact number)) (depth : Nat) :
    (Kernel.ofDepth (depth + 2)).Arranges allowed where
  raises := ofDepth_raises kept (depth + 1)
  binary family operands := operands.applyBinary_isArranged kept (ofDepth_raises kept depth) family

theorem Kernel.ofDepth_takesSigns (kept : ∀ number, ¬ allowed (.inexact number)) (depth : Nat) :
    (Kernel.ofDepth (depth + 3)).TakesSigns allowed where
  toArranges := ofDepth_arranges kept (depth + 1)
  beforeNegated leaf nonzero notOne notMinusOne power positive :=
    (ofDepth_arranges kept depth).applyBinary_beforeNegated kept leaf nonzero notOne notMinusOne
      power positive

theorem Kernel.ofDepth_movesSigns (kept : ∀ number, ¬ allowed (.inexact number)) (depth : Nat) :
    (Kernel.ofDepth (depth + 4)).MovesSigns allowed where
  toArranges := ofDepth_arranges kept (depth + 2)
  negate := applyNegation_upToSign kept (ofDepth_takesSigns kept depth)

theorem SignedOperands.arithmetic_upToSign (kept : ∀ number, ¬ allowed (.inexact number))
    (operands : SignedOperands op left right) (family : Chain.of? op = some .multiplicative) :
    (arithmetic op left right).Ensures allowed IsArrangedUpToSign := by
  obtain ⟨depth, engine⟩ := arithmetic_eq_ofDepth op left right
  rw [engine]
  exact operands.applyBinary_upToSign kept (Kernel.ofDepth_movesSigns kept (depth + 251)) family

theorem Expr.IsArrangedUpToSign.neg (kept : ∀ number, ¬ allowed (.inexact number))
    (upToSign : tree.IsArrangedUpToSign) : tree.neg.Ensures allowed IsArrangedUpToSign := by
  obtain ⟨depth, engine⟩ := neg_eq_ofDepth tree
  rw [engine]
  exact (Kernel.ofDepth_movesSigns kept (depth + 252)).negate upToSign

end Signs

end SymbolicAlgebra
