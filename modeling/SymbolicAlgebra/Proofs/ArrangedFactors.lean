import SymbolicAlgebra.Proofs.FactorCollection

/-!
# Arranging factors

Factors lose their signs before they are settled.  What is left is arranged in a product or
a quotient of products, and if an odd number of signs was lost, the factor that is read
first takes one.  Only there, and on a number behind a single factor, is there a sign in
the result, so that without signs among the factors there is none in the result either.
-/

namespace SymbolicAlgebra

open SymbolicAlgebra.Expr

namespace Expr

/-- A nonzero number, a positive power of a variable, or the negation of such a power.
There are signs only where they are admitted. -/
inductive IsSignedFactor (signs : Prop) : Expr → Prop where
  | number {value : ℚ} {tree : Expr} : tree.IsLeafOf ⟨value, 0⟩ → value ≠ 0 →
      (value < 0 → signs) → IsSignedFactor signs tree
  | power {name : String} {exponent : ℤ} {tree : Expr} : tree.IsPowerOf name exponent →
      0 < exponent → IsSignedFactor signs tree
  | negated {name : String} {exponent : ℤ} {tree : Expr} {mark : Mark} :
      tree.IsPowerOf name exponent → 0 < exponent → signs →
        IsSignedFactor signs (.unary .neg tree mark)

/-- One or minus one. -/
def isUnit (tree : Expr) : Bool := tree.isOne || tree.isMinusOne

/-- A product in which only the first factor may have a sign, and no factor is one. -/
inductive IsSignedProduct (signs : Prop) : Expr → Prop where
  | factor {tree : Expr} : tree.IsSignedFactor signs → IsSignedProduct signs tree
  | mul {left right : Expr} {mark : Mark} : IsSignedProduct signs left → left.isUnit = false →
      right.IsTerm → right.isOne = false → IsSignedProduct signs (.arith .mul left right mark)

/-- Such a product, a quotient of two of them with signs only above the bar, or a factor
with a negative number behind it. -/
inductive IsSignedQuotient (signs : Prop) : Expr → Prop where
  | product {tree : Expr} : tree.IsSignedProduct signs → IsSignedQuotient signs tree
  | quotient {top bottom : Expr} {mark : Mark} : top.IsSignedProduct signs →
      bottom.IsSignedProduct False → bottom.isOne = false →
        IsSignedQuotient signs (.arith .div top bottom mark)
  | behind {op : ArithOp} {value : ℚ} {left right : Expr} {mark : Mark} :
      Chain.of? op = some .multiplicative → left.IsSignedFactor signs → left.isNumber = false →
        right.IsLeafOf ⟨value, 0⟩ → value < 0 → value ≠ -1 → signs →
          IsSignedQuotient signs (.arith op left right mark)

/-- A tree as collecting leaves it: the factors of each variable are collected, and the
signs stand where collecting puts them. -/
structure IsArranged (signs : Prop) (tree : Expr) : Prop where
  isQuotient : tree.IsSignedQuotient signs
  collected : ∀ name, Collected (tree.exponents name)

end Expr

section Factors

variable {kernel : Kernel} {allowed : Step → Prop} {signs more : Prop} {tree : Expr}
  {factors : List Expr} {value : ℚ}

theorem Expr.IsTerm.isSigned (isTerm : tree.IsTerm) : tree.IsSignedFactor signs := by
  cases isTerm with
  | number leaf positive =>
      exact .number leaf positive.ne' fun negative => absurd negative positive.not_gt
  | power power positive => exact .power power positive

theorem Expr.IsSignedFactor.isTerm (factor : tree.IsSignedFactor False) : tree.IsTerm := by
  cases factor with
  | number leaf nonzero unsigned =>
      exact .number leaf (lt_of_le_of_ne (not_lt.mp unsigned) nonzero.symm)
  | power power positive => exact .power power positive
  | negated _ _ impossible => exact impossible.elim

theorem Expr.IsSignedFactor.imp (factor : tree.IsSignedFactor signs) (implies : signs → more) :
    tree.IsSignedFactor more := by
  cases factor with
  | number leaf nonzero admitted => exact .number leaf nonzero (implies ∘ admitted)
  | power power positive => exact .power power positive
  | negated power positive admitted => exact .negated power positive (implies admitted)

theorem Expr.IsLeafOf.isUnit_iff (leaf : tree.IsLeafOf ⟨value, 0⟩) :
    tree.isUnit = true ↔ value = 1 ∨ value = -1 := by
  rw [isUnit, Bool.or_eq_true, leaf.isOne_iff, leaf.isMinusOne_iff]

theorem Expr.IsTerm.isUnit (isTerm : tree.IsTerm) (notOne : tree.isOne = false) :
    tree.isUnit = false := by
  rw [Expr.isUnit, notOne, Bool.false_or]
  cases isTerm with
  | number leaf positive =>
      refine Bool.eq_false_iff.mpr (mt leaf.isMinusOne_iff.mp ?_)
      rintro rfl
      exact absurd positive (by norm_num)
  | power power _ => cases power <;> rfl

theorem neg_real (value : ℚ) : (-⟨value, 0⟩ : GaussianRational) = ⟨-value, 0⟩ :=
  QuadraticAlgebra.ext rfl neg_zero

theorem negateNumber_opposite (kept : ∀ number, ¬ allowed (.inexact number)) {number : Number}
    (represents : number.Represents ⟨value, 0⟩) :
    (negateNumber number).Ensures allowed (·.IsLeafOf ⟨-value, 0⟩) := by
  rw [← neg_real]
  exact negateNumber_leaf kept represents

theorem Kernel.Computes.negate_opposite (computes : kernel.Computes allowed)
    (leaf : tree.IsLeafOf ⟨value, 0⟩) :
    (kernel.negate tree).Ensures allowed (·.IsLeafOf ⟨-value, 0⟩) := by
  rw [← neg_real]
  exact computes.negate_leaf leaf

/-- A factor loses its sign, or it has none. -/
theorem Expr.IsSignedFactor.withoutSign_decides (kept : ∀ number, ¬ allowed (.inexact number))
    (factor : tree.IsSignedFactor signs) :
    (withoutSign tree).Decides allowed (fun positive => positive.IsTerm ∧ signs) tree.IsTerm := by
  have unsigned (isTerm : tree.IsTerm) : (withoutSign tree).Decides allowed
      (fun positive => positive.IsTerm ∧ signs) tree.IsTerm := by
    rw [isTerm.withoutSign]
    exact .failure isTerm
  cases factor with
  | @number value _ leaf nonzero admitted =>
      by_cases negative : value < 0
      · obtain ⟨number, mark, represents, rfl⟩ := leaf
        have shown : number.isNegative = true := represents.isNegative_iff.mpr ⟨rfl, negative⟩
        have negates := negateNumber_opposite kept represents
        rw [withoutSign, if_pos shown]
        refine Rule.Succeeds.decides (.lift (negates.mono fun positive leaf => ?_))
        exact ⟨.number leaf (neg_pos.mpr negative), admitted negative⟩
      · exact unsigned (.number leaf (lt_of_le_of_ne (not_lt.mp negative) nonzero.symm))
  | power power positive => exact unsigned (.power power positive)
  | negated power positive admitted => exact .pure ⟨.power power positive, admitted⟩

theorem extractSigns_extracts (kept : ∀ number, ¬ allowed (.inexact number))
    (signed : ∀ factor ∈ factors, factor.IsSignedFactor signs) :
    (extractSigns factors).Ensures allowed fun extracted =>
      (∀ factor ∈ extracted.1, factor.IsTerm) ∧ (extracted.2 = true → signs) := by
  induction factors with
  | nil => exact .pure ⟨List.forall_mem_nil _, nofun⟩
  | cons factor factors ih =>
      rw [List.forall_mem_cons] at signed
      refine (signed.1.withoutSign_decides kept).run_match ?_ ?_
      · rintro positive ⟨isTerm, admitted⟩
        refine .bind (ih signed.2) fun rest extracted => .pure ⟨?_, fun _ => admitted⟩
        exact List.forall_mem_cons.mpr ⟨isTerm, extracted.1⟩
      · intro isTerm
        refine .bind (ih signed.2) fun rest extracted => .pure ⟨?_, extracted.2⟩
        exact List.forall_mem_cons.mpr ⟨isTerm, extracted.1⟩

theorem pullSigns_extracts (kept : ∀ number, ¬ allowed (.inexact number)) {listed : Terms}
    (upSigned : ∀ factor ∈ listed.up, factor.IsSignedFactor signs)
    (downSigned : ∀ factor ∈ listed.down, factor.IsSignedFactor signs) :
    (pullSigns .multiplicative listed).Ensures allowed fun pulled =>
      (∀ factor ∈ pulled.1.up, factor.IsTerm) ∧ (∀ factor ∈ pulled.1.down, factor.IsTerm) ∧
        (pulled.2 = true → signs) := by
  refine .bind (extractSigns_extracts kept upSigned) ?_
  rintro ⟨up, upOdd⟩ ⟨upTerms, upAdmitted⟩
  refine .bind (extractSigns_extracts kept downSigned) ?_
  rintro ⟨down, downOdd⟩ ⟨downTerms, downAdmitted⟩
  refine .pure ⟨upTerms, downTerms, fun odd => ?_⟩
  cases upOdd with
  | false => exact downAdmitted (by simpa using odd)
  | true => exact upAdmitted rfl

/-- What a factor is negated to: a factor of the same kind and the same exponents. -/
structure Expr.IsNegationOf (signs : Prop) (tree result : Expr) : Prop where
  isFactor : result.IsSignedFactor signs
  exponents : ∀ name, result.exponents name = tree.exponents name
  isUnit : result.isUnit = tree.isUnit
  isNumber : result.isNumber = tree.isNumber

theorem Expr.IsSignedFactor.negate (raises : kernel.Raises allowed)
    (factor : tree.IsSignedFactor signs) (admitted : signs) :
    (kernel.negate tree).Ensures allowed (IsNegationOf signs tree) := by
  cases factor with
  | number leaf nonzero _ =>
      refine (raises.computes.negate_opposite leaf).mono fun result negative => ?_
      constructor
      · exact .number negative (neg_ne_zero.mpr nonzero) fun _ => admitted
      · exact fun name => negative.exponents.trans leaf.exponents.symm
      · rw [Bool.eq_iff_iff, negative.isUnit_iff, leaf.isUnit_iff, neg_eq_iff_eq_neg, neg_inj,
          or_comm]
      · obtain ⟨_, _, _, rfl⟩ := leaf
        obtain ⟨_, _, _, rfl⟩ := negative
        rfl
  | @power name exponent tree power positive =>
      refine (raises.negate power).mono ?_
      rintro _ ⟨mark, rfl⟩
      have isFactor : (Expr.unary .neg tree mark).IsSignedFactor signs :=
        .negated power positive admitted
      cases power <;> exact ⟨isFactor, fun _ => rfl, rfl, rfl⟩
  | negated power positive _ =>
      refine raises.restore.mono ?_
      rintro result rfl
      have isFactor : result.IsSignedFactor signs := .power power positive
      cases power <;> exact ⟨isFactor, fun _ => rfl, rfl, rfl⟩

end Factors

/-! ## Folding -/

section Folding

variable {kernel : Kernel} {allowed : Step → Prop} {signs : Prop} {lead last : Expr}
  {terms others up down : List Expr} {sides : Terms}

/-- Factors without signs that are not one. -/
def Proper (terms : List Expr) : Prop := ∀ term ∈ terms, term.IsTerm ∧ term.isOne = false

/-- The tree is the product of a first factor and of some terms, which are read from last
to first. -/
structure Expr.IsFoldOf (signs : Prop) (lead : Expr) (terms : List Expr) (tree : Expr) :
    Prop where
  isProduct : tree.IsSignedProduct signs
  isUnit : lead.isUnit = false → tree.isUnit = false
  exponents : ∀ name, (tree.exponents name).Perm (exponentsOf name (lead :: terms))

/-- A unit stands alone. -/
theorem foldBack_isFoldOf (factor : lead.IsSignedFactor signs)
    (alone : terms = [] ∨ lead.isUnit = false) (proper : Proper terms) :
    (foldBack .mul lead terms).Ensures (IsFoldOf signs lead terms) := by
  induction terms with
  | nil => exact .pure ⟨.factor factor, id, fun name => by simp [exponentsOf]⟩
  | cons term terms ih =>
      obtain ⟨⟨isTerm, notOne⟩, rest⟩ := List.forall_mem_cons.mp proper
      have notUnit := alone.resolve_left (List.cons_ne_nil _ _)
      refine .bind (ih (.inr notUnit) rest) fun folded product => .make fun mark => ?_
      constructor
      · exact .mul product.isProduct (product.isUnit notUnit) isTerm notOne
      · exact fun _ => rfl
      · intro name
        have appended := (product.exponents name).append_right (term.exponents name)
        have rotated : (exponentsOf name ((lead :: terms) ++ [term])).Perm
            (exponentsOf name (lead :: term :: terms)) :=
          exponentsOf_perm ((List.perm_append_singleton term terms).cons lead)
        refine appended.trans ?_
        simpa [exponentsOf] using rotated

theorem foldReversed?_isFoldOf (factor : last.IsSignedFactor signs)
    (alone : others = [] ∨ last.isUnit = false) (proper : Proper others) :
    (foldReversed? .mul (others ++ [last])).Ensures fun folded =>
      ∃ tree, folded = some tree ∧ IsFoldOf signs last others tree := by
  have found : (others ++ [last]).getLast? = some last := List.getLast?_concat
  rw [foldReversed?, found, List.dropLast_concat]
  exact .bind (foldBack_isFoldOf factor alone proper) fun tree product => .pure ⟨tree, rfl, product⟩

/-- The factors above the bar, where the last one, which is read first, may have a sign. -/
inductive IsNumeratorOf (signs : Prop) (terms : List Expr) : List Expr → Prop where
  | empty : terms = [] → IsNumeratorOf signs terms []
  | signed {others : List Expr} {last : Expr} : last.IsSignedFactor signs →
      (others = [] ∨ last.isUnit = false) → Proper others →
        (∀ name, (exponentsOf name (last :: others)).Perm (exponentsOf name terms)) →
          IsNumeratorOf signs terms (others ++ [last])

theorem signedNumerator_ensures (raises : kernel.Raises allowed) (proper : Proper terms)
    {negative : Bool} (admitted : negative = true → signs) :
    (signedNumerator kernel negative terms).Ensures allowed (IsNumeratorOf signs terms) := by
  rcases List.eq_nil_or_concat' terms with rfl | ⟨others, last, rfl⟩
  · cases negative with
    | false => exact .pure (.empty rfl)
    | true =>
        have isFactor : (Expr.int (-1)).IsSignedFactor signs := by
          refine .number ⟨.int (-1), _, ⟨(by decide : InRange (-1)), ?_⟩, rfl⟩
            (neg_ne_zero.mpr one_ne_zero) fun _ => admitted rfl
          exact congrArg some (QuadraticAlgebra.ext (by simp) rfl)
        exact .pure (.signed isFactor (.inl rfl) (List.forall_mem_nil _) fun _ => .refl _)
  · have ⟨rest, ⟨isTerm, notOne⟩⟩ := List.forall_mem_append.mp proper |>.imp_right
      List.forall_mem_singleton.mp
    have rotated (name : String) : (exponentsOf name (last :: others)).Perm
        (exponentsOf name (others ++ [last])) :=
      exponentsOf_perm (List.perm_append_singleton last others).symm
    cases negative with
    | false => exact .pure (.signed isTerm.isSigned (.inr (isTerm.isUnit notOne)) rest rotated)
    | true =>
        have found : (others ++ [last]).getLast? = some last := List.getLast?_concat
        rw [signedNumerator, if_pos rfl, found, List.dropLast_concat]
        refine .bind (isTerm.isSigned.negate raises (admitted rfl)) fun signed negation => .pure ?_
        refine .signed negation.isFactor (.inr ?_) rest fun name => ?_
        · rw [negation.isUnit, isTerm.isUnit notOne]
        · have same : exponentsOf name (signed :: others) = exponentsOf name (last :: others) := by
            simp only [exponentsOf, List.flatMap_cons, negation.exponents]
          rw [same]
          exact rotated name

theorem foldMultiplicative_isArranged (raises : kernel.Raises allowed) (settles : Settles sides)
    (upProper : Proper sides.up) (downProper : Proper sides.down) {negative : Bool}
    (admitted : negative = true → signs) :
    (foldMultiplicative kernel negative sides).Ensures allowed (IsArranged signs) := by
  refine .bind (signedNumerator_ensures raises upProper admitted) fun numerator isNumerator => ?_
  have folds : (foldReversed? .mul numerator).Ensures fun folded =>
      (folded.getD Chain.multiplicative.neutral).IsSignedProduct signs ∧ ∀ name,
        ((folded.getD Chain.multiplicative.neutral).exponents name).Perm
          (exponentsOf name sides.up) := by
    cases isNumerator with
    | empty empty =>
        rw [empty]
        refine .pure ⟨.factor ?_, fun name => .refl _⟩
        exact Expr.IsTerm.isSigned (.number (isLeafOf_one _) one_pos)
    | signed factor alone proper same =>
        refine (foldReversed?_isFoldOf factor alone proper).mono ?_
        rintro _ ⟨tree, rfl, product⟩
        exact ⟨product.isProduct, fun name => (product.exponents name).trans (same name)⟩
  refine .bind (.ofMarking folds) fun folded top => ?_
  rcases List.eq_nil_or_concat' sides.down with empty | ⟨others, last, split⟩
  · rw [empty]
    refine .pure ⟨.product top.1, fun name => ?_⟩
    have noneBelow : ([] : List ℤ).Perm (exponentsOf name sides.down) := by rw [empty]; rfl
    have collected := settles.isCollected name (top.2 name) noneBelow
    rwa [List.map_nil, List.append_nil] at collected
  · rw [split] at downProper ⊢
    have ⟨rest, ⟨isTerm, notOne⟩⟩ := List.forall_mem_append.mp downProper |>.imp_right
      List.forall_mem_singleton.mp
    have notUnit := isTerm.isUnit notOne
    have unsigned : last.IsSignedFactor False := isTerm.isSigned
    refine .bind (.ofMarking (foldReversed?_isFoldOf unsigned (.inr notUnit) rest)) ?_
    rintro _ ⟨bottom, rfl, product⟩
    refine .make fun mark => ⟨.quotient top.1 product.isProduct ?_, fun name => ?_⟩
    · exact (Bool.or_eq_false_iff.mp (product.isUnit notUnit)).1
    · refine settles.isCollected name (top.2 name) ((product.exponents name).trans ?_)
      rw [split]
      exact exponentsOf_perm (List.perm_append_singleton last others).symm

end Folding

/-! ## Collecting -/

section Collecting

variable {kernel : Kernel} {allowed : Step → Prop} {signs : Prop} {listed sides : Terms}

theorem Settles.proper (settles : Settles sides) :
    Proper (sides.up.filter (!Chain.multiplicative.isNeutral ·)) ∧
      Proper (sides.down.filter (!Chain.multiplicative.isNeutral ·)) := by
  constructor
  · intro factor member
    rw [List.mem_filter, Bool.not_eq_true'] at member
    exact ⟨settles.upTerms factor member.1, member.2⟩
  · intro factor member
    rw [List.mem_filter, Bool.not_eq_true'] at member
    exact ⟨settles.downTerms factor member.1, member.2⟩

/-- Factors are collected into an arranged tree, which has signs only if they have. -/
theorem collect_isArranged (kept : ∀ number, ¬ allowed (.inexact number))
    (raises : kernel.Raises allowed)
    (upSigned : ∀ factor ∈ listed.up, factor.IsSignedFactor signs)
    (downSigned : ∀ factor ∈ listed.down, factor.IsSignedFactor signs) :
    (collect kernel .multiplicative listed).Ensures allowed (IsArranged signs) := by
  have pulls := pullSigns_extracts kept upSigned downSigned
  refine collect_signed pulls
    (fun pulled extracted => settle_settles kept raises extracted.1 extracted.2.1) ?_ ?_
  · exact fun settled settles term member => (settles.upTerms term member).isZero
  · intro pulled settled extracted settles
    have ⟨upProper, downProper⟩ := settles.proper
    exact foldMultiplicative_isArranged raises settles.filter upProper downProper extracted.2.2

theorem Expr.IsSignedProduct.isMonomial {tree : Expr} (product : tree.IsSignedProduct False) :
    tree.IsMonomial := by
  induction product with
  | factor factor => exact factor.isTerm.isMonomial
  | mul _ _ isTerm _ ih => exact .mul ih isTerm.isMonomial

/-- Without signs the result is a monomial of positive factors. -/
theorem Expr.IsArranged.isCollected {tree : Expr} (arranged : tree.IsArranged False) :
    tree.IsCollected := by
  refine ⟨?_, arranged.collected⟩
  cases arranged.isQuotient with
  | product product => exact product.isMonomial
  | quotient top bottom _ => exact .div top.isMonomial bottom.isMonomial
  | behind _ _ _ _ _ _ impossible => exact impossible.elim

end Collecting

end SymbolicAlgebra
