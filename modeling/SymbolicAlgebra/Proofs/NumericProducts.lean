import SymbolicAlgebra.Proofs.NumericTerms

/-!
# Numbers multiplied by a variable

A product of nonzero exact numbers and one variable is given one of five forms, none
of which holds more than one number.  The sign of the product stands on the number
when there is one.

The engine at each depth relies on the depths below it: negation of a product
multiplies by the negated number, and a number before a negated variable takes over
the sign.  The statements name the depths that they need.
-/

namespace SymbolicAlgebra

open SymbolicAlgebra.Expr

/-- A variable with a coefficient, in one of the forms that products are given. -/
inductive Scaled (name : String) : GaussianRational → Expr → Prop where
  | alone {mark : Mark} : Scaled name 1 (.var name mark)
  | negated {inner outer : Mark} : Scaled name (-1) (.unary .neg (.var name inner) outer)
  | before {value : GaussianRational} {leaf : Expr} {inner outer : Mark} :
      leaf.IsLeafOf value → Scaled name value (.arith .mul leaf (.var name inner) outer)
  | behind {value : GaussianRational} {leaf : Expr} {inner outer : Mark} :
      leaf.IsLeafOf value → Scaled name value (.arith .mul (.var name inner) leaf outer)
  | behindNegated {value : GaussianRational} {leaf : Expr} {inner middle outer : Mark} :
      leaf.IsLeafOf value → Scaled name (-value)
        (.arith .mul (.unary .neg (.var name inner) middle) leaf outer)

section Products

variable {kernel : Kernel} {allowed : Step → Prop} {name : String} {value z w : GaussianRational}
  {tree leaf factor : Expr} {terms others : List Expr} {mark : Mark}

/-! ### Collecting -/

/-- Numbers in front of other factors lose their signs. -/
theorem extractSigns_numbers (kept : ∀ number, ¬ allowed (.inexact number))
    (amounts : Amounts .multiplicative terms z) {Holds : List Expr × Bool → Prop}
    (ensures : (extractSigns others).Ensures allowed Holds) :
    (extractSigns (terms ++ others)).Ensures allowed fun extracted =>
      ∃ numbers magnitude odd rest, Amounts .multiplicative numbers magnitude ∧
        signed odd magnitude = z ∧ Holds rest ∧ extracted = (numbers ++ rest.1, odd != rest.2) := by
  induction amounts with
  | nil => exact ensures.mono fun rest holds => ⟨[], 1, false, rest, .nil, rfl, holds, by simp⟩
  | @cons term terms first total leaf _ ih =>
      obtain ⟨number, mark, represents, rfl⟩ := leaf
      by_cases negative : number.isNegative = true
      · have loses :
            (withoutSign (.number number mark)).Succeeds allowed (·.IsLeafOf (-first)) := by
          rw [withoutSign, if_pos negative]
          exact .lift (negateNumber_leaf kept represents)
        refine loses.run_match fun opposite oppositeLeaf => .bind ih ?_
        rintro _ ⟨numbers, magnitude, odd, rest, numberAmounts, rfl, holds, rfl⟩
        refine .pure ⟨opposite :: numbers, -first * magnitude, !odd, rest,
          .cons oppositeLeaf numberAmounts, ?_, holds, by cases odd <;> cases rest.2 <;> rfl⟩
        cases odd <;> simp [signed, Chain.join]
      · have keeps : (withoutSign (.number number mark)).Ensures allowed fun _ => False := by
          rw [withoutSign, if_neg negative]
          exact .failure
        refine keeps.run_none (.bind ih ?_)
        rintro _ ⟨numbers, magnitude, odd, rest, numberAmounts, rfl, holds, rfl⟩
        refine .pure ⟨.number number mark :: numbers, first * magnitude, odd, rest,
          .cons ⟨number, mark, represents, rfl⟩ numberAmounts, ?_, holds, rfl⟩
        cases odd <;> simp [signed, Chain.join]

/-- The factors are numbers and the variable, which may bear a minus sign. -/
def GatheredFactors (name : String) (value : GaussianRational) (factors : List Expr) : Prop :=
  ∃ (numbers others : List Expr) (first second : GaussianRational) (factor : Expr) (odd : Bool)
    (mark : Mark), factors = numbers ++ factor :: others ∧
      Amounts .multiplicative numbers first ∧ Amounts .multiplicative others second ∧
      ((odd = false ∧ factor = .var name mark) ∨
        odd = true ∧ ∃ outer, factor = .unary .neg (.var name mark) outer) ∧
      signed odd (first * second) = value

/-- More numbers on either side of the factors. -/
theorem GatheredFactors.append (gathered : GatheredFactors name z terms)
    (amounts : Amounts .multiplicative others w) :
    GatheredFactors name (z * w) (terms ++ others) ∧
      GatheredFactors name (z * w) (others ++ terms) := by
  obtain ⟨numbers, rest, first, second, factor, odd, mark, rfl, numberAmounts, restAmounts, shape,
    rfl⟩ := gathered
  refine ⟨⟨numbers, rest ++ others, first, second * w, factor, odd, mark, by simp, numberAmounts,
    restAmounts.append amounts, shape, ?_⟩,
    ⟨others ++ numbers, rest, w * first, second, factor, odd,
      mark, by simp, amounts.append numberAmounts, restAmounts, shape, ?_⟩⟩
  all_goals
    cases odd <;> simp only [signed, Bool.false_eq_true, if_false, if_true]
    all_goals ring

theorem extractSigns_gathered (kept : ∀ number, ¬ allowed (.inexact number))
    (gathered : GatheredFactors name value terms) :
    (extractSigns terms).Ensures allowed fun extracted =>
      ∃ numbers magnitude mark, Amounts .multiplicative numbers magnitude ∧
        extracted.1.Perm (.var name mark :: numbers) ∧ signed extracted.2 magnitude = value := by
  obtain ⟨numbers, others, first, second, factor, odd, mark, rfl, numberAmounts, otherAmounts,
    shape, rfl⟩ := gathered
  have nothing : (extractSigns []).Ensures allowed (· = ([], false)) := .pure rfl
  have behind : (extractSigns (factor :: others)).Ensures allowed fun extracted =>
      ∃ rest magnitude otherOdd, Amounts .multiplicative rest magnitude ∧
        signed otherOdd magnitude = second ∧
          extracted = (.var name mark :: rest, odd != otherOdd) := by
    have tail := extractSigns_numbers kept otherAmounts nothing
    rw [List.append_nil] at tail
    rcases shape with ⟨rfl, rfl⟩ | ⟨rfl, outer, rfl⟩
    · have keeps : (withoutSign (.var name mark)).Ensures allowed fun _ => False := .failure
      refine keeps.run_none (.bind tail ?_)
      rintro _ ⟨rest, magnitude, otherOdd, _, restAmounts, sign, rfl, rfl⟩
      exact .pure ⟨rest, magnitude, otherOdd, restAmounts, sign, by simp⟩
    · have loses : (withoutSign (.unary .neg (.var name mark) outer)).Succeeds allowed
          (· = .var name mark) := .pure rfl
      refine loses.run_match ?_
      rintro _ rfl
      refine .bind tail ?_
      rintro _ ⟨rest, magnitude, otherOdd, _, restAmounts, sign, rfl, rfl⟩
      exact .pure ⟨rest, magnitude, otherOdd, restAmounts, sign, by simp⟩
  refine (extractSigns_numbers kept numberAmounts behind).mono ?_
  rintro _ ⟨front, frontMagnitude, frontOdd, _, frontAmounts, rfl,
    ⟨rest, magnitude, otherOdd, restAmounts, rfl, rfl⟩, rfl⟩
  refine ⟨front ++ rest, frontMagnitude * magnitude, mark, frontAmounts.append restAmounts,
    List.perm_middle, ?_⟩
  cases frontOdd <;> cases odd <;> cases otherOdd <;> simp [signed]

theorem settle_factors (kept : ∀ number, ¬ allowed (.inexact number))
    (amounts : Amounts .multiplicative others value)
    (permuted : terms.Perm (.var name mark :: others)) :
    (settle kernel .multiplicative ⟨terms, []⟩).Ensures allowed fun settled =>
      ∃ rest, Remainder .multiplicative rest value ∧
        settled = ⟨.var name mark :: rest, []⟩ := by
  have tidies {list numbers : List Expr} (amounts : Amounts .multiplicative numbers value)
      (permuted : list.Perm (.var name mark :: numbers)) :
      (tidyBoth kernel .multiplicative ⟨list, []⟩).Ensures allowed fun tidied =>
        ∃ rest, Remainder .multiplicative rest value ∧ tidied = ⟨.var name mark :: rest, []⟩ := by
    refine .bind (tidy_var kept amounts permuted) ?_
    rintro _ ⟨rest, remainder, rfl⟩
    refine .bind (.pure rfl : Traced.Ensures allowed (tidy kernel .multiplicative []) (· = [])) ?_
    rintro _ rfl
    exact .pure ⟨rest, remainder, rfl⟩
  refine .bind (tidies amounts permuted) ?_
  rintro _ ⟨rest, remainder, rfl⟩
  refine .bind (.pure rfl : Traced.Ensures allowed (cancel kernel .multiplicative _ [])
    (· = ⟨.var name mark :: rest, []⟩)) ?_
  rintro _ rfl
  refine .bind (tidies remainder.amounts (.refl _)) ?_
  rintro _ ⟨rest, remainder, rfl⟩
  -- Neither a variable nor a number is a negative power, and the two are in order.
  have ⟨stays, sorted⟩ :
      (balance .multiplicative ⟨.var name mark :: rest, []⟩).Ensures allowed
        (· = ⟨.var name mark :: rest, []⟩) ∧
      sortTerms .multiplicative (.var name mark :: rest) = .var name mark :: rest := by
    cases remainder with
    | none => exact ⟨.pure rfl, rfl⟩
    | leaf isLeaf =>
        obtain ⟨number, inner, _, rfl⟩ := isLeaf
        exact ⟨.pure rfl, rfl⟩
  refine .bind stays ?_
  rintro _ rfl
  exact .pure ⟨rest, remainder, by rw [sorted]; rfl⟩

/-- The arithmetic below puts a minus sign on the variable and on numbers. -/
structure Kernel.Negates (allowed : Step → Prop) (name : String) (kernel : Kernel) : Prop where
  var : ∀ mark, (kernel.negate (.var name mark)).Ensures allowed fun result =>
    ∃ outer, result = .unary .neg (.var name mark) outer
  leaf : ∀ {leaf : Expr} {value : GaussianRational}, leaf.IsLeafOf value →
    (kernel.negate leaf).Ensures allowed (·.IsLeafOf (-value))

theorem foldMultiplicative_scaled (negates : kernel.Negates allowed name)
    (remainder : Remainder .multiplicative terms value) (odd : Bool) :
    (foldMultiplicative kernel odd
      ⟨(.var name mark :: terms).filter (!Chain.multiplicative.isNeutral ·), []⟩).Ensures allowed
        (Scaled name (signed odd value)) := by
  have single : (foldMultiplicative kernel odd ⟨[.var name mark], []⟩).Ensures allowed
      (Scaled name (signed odd 1)) := by
    cases odd with
    | false => exact .pure .alone
    | true =>
        have signs : (signedNumerator kernel true [.var name mark]).Ensures allowed
            fun numerator => ∃ outer, numerator = [.unary .neg (.var name mark) outer] := by
          refine .bind (negates.var mark) ?_
          rintro _ ⟨outer, rfl⟩
          exact .pure ⟨outer, rfl⟩
        refine .bind signs ?_
        rintro _ ⟨outer, rfl⟩
        exact .pure .negated
  cases remainder with
  | none => exact single
  | @leaf leaf _ isLeaf =>
      have variableKept : Chain.multiplicative.isNeutral (.var name mark) = false := rfl
      by_cases one : Chain.multiplicative.isNeutral leaf = true
      · obtain rfl : value = 1 := by
          obtain ⟨number, inner, represents, rfl⟩ := isLeaf
          exact represents.eq_one one
        simp only [List.filter_cons, one, variableKept]
        exact single
      · simp only [List.filter_cons, one, variableKept]
        have signs : (signedNumerator kernel odd [.var name mark, leaf]).Ensures allowed
            fun numerator => ∃ last, last.IsLeafOf (signed odd value) ∧
              numerator = [.var name mark, last] := by
          cases odd with
          | false => exact .pure ⟨leaf, isLeaf, rfl⟩
          | true =>
              exact .bind (negates.leaf isLeaf) fun last lastLeaf => .pure ⟨last, lastLeaf, rfl⟩
        refine .bind signs ?_
        rintro _ ⟨last, lastLeaf, rfl⟩
        have folds : (foldReversed? .mul [.var name mark, last]).Ensures fun folded =>
            ∃ outer, folded = some (.arith .mul last (.var name mark) outer) :=
          fun start => ⟨.made start, rfl⟩
        refine .bind (.ofMarking folds) ?_
        rintro _ ⟨outer, rfl⟩
        exact .pure (.before lastLeaf)

theorem collect_factors (kept : ∀ number, ¬ allowed (.inexact number))
    (negates : kernel.Negates allowed name) (gathered : GatheredFactors name value terms)
    (nonzero : value ≠ 0) :
    (collect kernel .multiplicative ⟨terms, []⟩).Ensures allowed (Scaled name value) := by
  refine .bind .step fun _ _ => ?_
  have pulls : (pullSigns .multiplicative ⟨terms, []⟩).Ensures allowed fun pulled =>
      pulled.1.down = [] ∧ ∃ numbers magnitude mark, Amounts .multiplicative numbers magnitude ∧
        pulled.1.up.Perm (.var name mark :: numbers) ∧ signed pulled.2 magnitude = value := by
    refine .bind (extractSigns_gathered kept gathered) ?_
    rintro ⟨up, odd⟩ extracted
    refine .bind (.pure rfl : Traced.Ensures allowed (extractSigns []) (· = ([], false))) ?_
    rintro _ rfl
    refine .pure ⟨rfl, ?_⟩
    simpa using extracted
  refine .bind pulls ?_
  rintro ⟨⟨up, _⟩, odd⟩ ⟨rfl, numbers, magnitude, mark, amounts, permuted, rfl⟩
  refine .bind (settle_factors kept amounts permuted) ?_
  rintro _ ⟨rest, remainder, rfl⟩
  have noZero : (.var name mark :: rest).any Expr.isZero = false := by
    cases remainder with
    | none => rfl
    | leaf isLeaf =>
        obtain ⟨number, inner, represents, rfl⟩ := isLeaf
        have notZero : number.isZero = false := by
          refine Bool.eq_false_iff.mpr (mt represents.isZero_iff.mp ?_)
          rintro rfl
          cases odd <;> simp [signed] at nonzero
        change (false || (number.isZero || false)) = false
        rw [notZero]
        rfl
  simp only [noZero, Bool.and_false, Bool.false_eq_true, if_false]
  exact foldMultiplicative_scaled negates remainder odd

/-! ### Operators -/

/-- The negation of a tree that is one addend is made by a rule or is the plain node. -/
theorem applyNegation_ensures {condition : Expr → Prop}
    (noError : tree.isError = false) (noNumber : tree.toNumber? = none)
    (noArray : tree.asArray? = none) (noText : tree.isTextual = false)
    (single : fillAdditive tree .empty = pure ⟨[tree], []⟩)
    (rules : (negateByForm kernel tree <|> negated kernel tree).Ensures allowed condition)
    (builds : ∀ outer, condition (.unary .neg tree outer)) :
    (applyNegation kernel tree).Ensures allowed condition := by
  rw [applyNegation, noError, noNumber, noArray, noText]
  refine rules.run_match (fun _ holds => .pure holds) ?_
  have listed : (fillAdditive tree .empty).Ensures allowed (· = ⟨[tree], []⟩) := by
    rw [single]
    exact .pure rfl
  have filled : (do return (← fillAdditive tree Terms.empty.swap).swap : Traced Terms).Ensures
      allowed (· = ⟨[], [tree]⟩) := by
    refine .bind listed ?_
    rintro _ rfl
    exact .pure rfl
  refine collectFilled_ensures filled ?_
  rintro _ rfl
  exact .make builds

theorem applyNegation_var :
    (applyNegation kernel (.var name mark)).Ensures allowed fun result =>
      ∃ outer, result = .unary .neg (.var name mark) outer :=
  applyNegation_ensures rfl rfl rfl rfl rfl (.orElse .failure .failure) fun outer => ⟨outer, rfl⟩

theorem Kernel.Computes.negate_leaf (computes : kernel.Computes allowed)
    (isLeaf : leaf.IsLeafOf value) :
    (kernel.negate leaf).Ensures allowed (·.IsLeafOf (-value)) := by
  obtain ⟨number, mark, represents, rfl⟩ := isLeaf
  refine (computes.negate represents.isExact).mono ?_
  rintro _ ⟨exact, mark, rfl⟩
  exact ⟨_, mark, Number.neg_represents represents.1 represents.2 exact, rfl⟩

theorem Kernel.ofDepth_negates (kept : ∀ number, ¬ allowed (.inexact number)) (name : String)
    (depth : Nat) : (Kernel.ofDepth depth).Negates allowed name := by
  cases depth with
  | zero =>
      exact ⟨fun _ => .make fun outer => ⟨outer, rfl⟩, (plain_computes kept).negate_leaf⟩
  | succ depth => exact ⟨fun _ => applyNegation_var, (above_computes kept).negate_leaf⟩

theorem Scaled.isConstant (scaled : Scaled name value tree) : tree.isConstant = false := by
  cases scaled <;> rfl

/-- The rules for a product of a number and a tree in one of the final forms. -/
theorem Scaled.combine_eq (scaled : Scaled name value tree) (isLeaf : leaf.IsLeafOf w)
    (nonzero : w ≠ 0) :
    combine kernel .mul tree leaf =
        (if leaf.isOne then pure tree
        else if leaf.isMinusOne then liftM (kernel.negate tree)
        else mulSigns kernel tree leaf <|> failure) ∧
      combine kernel .mul leaf tree =
        if leaf.isOne then pure tree
        else if leaf.isMinusOne then liftM (kernel.negate tree)
        else mulSigns kernel leaf tree <|> failure := by
  have notZero : leaf.isZero = false := by
    obtain ⟨number, mark, represents, rfl⟩ := isLeaf
    exact Bool.eq_false_iff.mpr (mt represents.isZero_iff.mp nonzero)
  obtain ⟨number, mark, represents, rfl⟩ := isLeaf
  have noError : tree.isError = false := by cases scaled <;> rfl
  have noArray : tree.asArray? = none := by cases scaled <;> rfl
  have neutral : tree.isZero = false ∧ tree.isOne = false ∧ tree.isMinusOne = false := by
    cases scaled <;> exact ⟨rfl, rfl, rfl⟩
  have exact : (Expr.number number mark).isError = false := isError_number represents.isExact
  have noPowers : mulPowers kernel tree (.number number mark) = failure := by
    cases scaled <;> rfl
  have noPowersSwapped : mulPowers kernel (.number number mark) tree = failure := rfl
  rw [combine_eq_identities ⟨noError, exact⟩ ⟨noArray, rfl⟩ (.inl scaled.isConstant),
    combine_eq_identities ⟨exact, noError⟩ ⟨rfl, noArray⟩ (.inr scaled.isConstant)]
  constructor
  · simp only [identities, mulIdentities, neutral, notZero, noPowers, Bool.false_eq_true, if_false]
  · simp only [identities, mulIdentities, neutral, notZero, noPowersSwapped, Bool.false_eq_true,
      if_false]

/-- A product of the final forms next to a number, as factors of one chain. -/
theorem Scaled.factors {left right : Expr} {outer : Mark}
    (scaled : Scaled name z (.arith .mul left right outer)) (isLeaf : leaf.IsLeafOf w) :
    GatheredFactors name z [left, right] ∧
      fillOperands .multiplicative .mul (.arith .mul left right outer) leaf .empty =
        pure ⟨[left, right, leaf], []⟩ ∧
      fillOperands .multiplicative .mul leaf (.arith .mul left right outer) .empty =
        pure ⟨[leaf, left, right], []⟩ := by
  obtain ⟨number, mark, _, rfl⟩ := isLeaf
  cases scaled with
  | @before _ _ inner _ otherLeaf =>
      have numbers : Amounts .multiplicative [left] z := .singleton otherLeaf
      obtain ⟨other, otherMark, _, rfl⟩ := otherLeaf
      exact ⟨⟨[_], [], z, 1, _, false, inner, rfl, numbers, .nil, .inl ⟨rfl, rfl⟩, mul_one z⟩,
        rfl, rfl⟩
  | @behind _ _ inner _ otherLeaf =>
      have numbers : Amounts .multiplicative [right] z := .singleton otherLeaf
      obtain ⟨other, otherMark, _, rfl⟩ := otherLeaf
      exact ⟨⟨[], [_], 1, z, _, false, inner, rfl, .nil, numbers, .inl ⟨rfl, rfl⟩, one_mul z⟩,
        rfl, rfl⟩
  | @behindNegated value _ inner middle _ otherLeaf =>
      have numbers : Amounts .multiplicative [right] value := .singleton otherLeaf
      obtain ⟨other, otherMark, _, rfl⟩ := otherLeaf
      exact ⟨⟨[], [_], 1, value, _, true, inner, rfl, .nil, numbers, .inr ⟨rfl, middle, rfl⟩,
        congrArg Neg.neg (one_mul value)⟩, rfl, rfl⟩

/-- A number other than one and minus one is left to the rule for signs and to the
collection of factors. -/
theorem applyBinary_mul_scaled (scaled : Scaled name z tree) (isLeaf : leaf.IsLeafOf w)
    (nonzero : w ≠ 0) (negates : (kernel.negate tree).Ensures allowed (Scaled name (-z)))
    (behind : mulSigns kernel tree leaf = failure ∧
      (collectOrBuild kernel .mul tree leaf).Ensures allowed (Scaled name (z * w)))
    (before : (mulSigns kernel leaf tree).Succeeds allowed (Scaled name (z * w)) ∨
      mulSigns kernel leaf tree = failure ∧
        (collectOrBuild kernel .mul leaf tree).Ensures allowed (Scaled name (z * w))) :
    (applyBinary kernel .mul tree leaf).Ensures allowed (Scaled name (z * w)) ∧
      (applyBinary kernel .mul leaf tree).Ensures allowed (Scaled name (z * w)) := by
  have ⟨combined, swapped⟩ :
      combine kernel .mul tree leaf = _ ∧ combine kernel .mul leaf tree = _ :=
    scaled.combine_eq isLeaf nonzero
  unfold applyBinary
  rw [combined, swapped]
  by_cases one : leaf.isOne = true
  · obtain rfl : w = 1 := by
      obtain ⟨number, mark, represents, rfl⟩ := isLeaf
      exact represents.eq_one one
    rw [if_pos one, if_pos one, mul_one]
    exact ⟨.pure scaled, .pure scaled⟩
  rw [if_neg one, if_neg one]
  by_cases minusOne : leaf.isMinusOne = true
  · obtain rfl : w = -1 := by
      obtain ⟨number, mark, represents, rfl⟩ := isLeaf
      exact represents.eq_neg_one minusOne
    rw [if_pos minusOne, if_pos minusOne, mul_neg_one]
    have found : (liftM (kernel.negate tree) : Rule Expr).Succeeds allowed (Scaled name (-z)) :=
      .lift negates
    exact ⟨found.run_match fun _ holds => .pure holds, found.run_match fun _ holds => .pure holds⟩
  rw [if_neg minusOne, if_neg minusOne]
  have unmatched : (failure <|> failure : Rule Expr).Ensures allowed fun _ => False :=
    .orElse .failure .failure
  refine ⟨?_, ?_⟩
  · rw [behind.1]
    exact unmatched.run_none behind.2
  · rcases before with signs | ⟨unsigned, collects⟩
    · exact Rule.Succeeds.run_match (.orElse signs) fun _ holds => .pure holds
    · rw [unsigned]
      exact unmatched.run_none collects

section Engine

variable {depth : Nat}

theorem ofDepth_mul_var (kept : ∀ number, ¬ allowed (.inexact number)) (isLeaf : leaf.IsLeafOf w)
    (nonzero : w ≠ 0) :
    ((Kernel.ofDepth (depth + 1)).binary .mul (.var name mark) leaf).Ensures allowed
        (Scaled name w) ∧
      ((Kernel.ofDepth (depth + 1)).binary .mul leaf (.var name mark)).Ensures allowed
        (Scaled name w) := by
  have negates : ((Kernel.ofDepth depth).negate (.var name mark)).Ensures allowed
      (Scaled name (-1)) := by
    refine ((Kernel.ofDepth_negates kept name depth).var mark).mono ?_
    rintro _ ⟨outer, rfl⟩
    exact .negated
  obtain ⟨number, inner, represents, rfl⟩ := isLeaf
  have isLeaf : IsLeafOf w (.number number inner) := ⟨number, inner, represents, rfl⟩
  rw [← one_mul w]
  refine applyBinary_mul_scaled .alone isLeaf nonzero negates ⟨rfl, ?_⟩ (.inr ⟨rfl, ?_⟩)
  · rw [one_mul]
    exact collectOrBuild_builds ⟨[.var name mark, .number number inner], []⟩ rfl rfl rfl
      fun outer => .behind isLeaf
  · rw [one_mul]
    exact collectOrBuild_builds ⟨[.number number inner, .var name mark], []⟩ rfl rfl rfl
      fun outer => .before isLeaf

theorem ofDepth_mul_negated (kept : ∀ number, ¬ allowed (.inexact number)) {outer : Mark}
    (isLeaf : leaf.IsLeafOf w) (nonzero : w ≠ 0) :
    ((Kernel.ofDepth (depth + 2)).binary .mul (.unary .neg (.var name mark) outer) leaf).Ensures
        allowed (Scaled name (-w)) ∧
      ((Kernel.ofDepth (depth + 2)).binary .mul leaf (.unary .neg (.var name mark) outer)).Ensures
        allowed (Scaled name (-w)) := by
  have negates : ((Kernel.ofDepth (depth + 1)).negate (.unary .neg (.var name mark) outer)).Ensures
      allowed (Scaled name (- -1)) := by
    rw [neg_neg]
    exact .pure .alone
  obtain ⟨number, inner, represents, rfl⟩ := isLeaf
  have isLeaf : IsLeafOf w (.number number inner) := ⟨number, inner, represents, rfl⟩
  rw [← neg_one_mul w]
  refine applyBinary_mul_scaled .negated isLeaf nonzero negates ⟨rfl, ?_⟩ (.inl ?_)
  · rw [neg_one_mul]
    exact collectOrBuild_builds ⟨[.unary .neg (.var name mark) outer, .number number inner], []⟩
      rfl rfl rfl fun outer => .behindNegated isLeaf
  · rw [neg_one_mul]
    exact .bind (.lift (negateNumber_leaf kept represents)) fun _ opposite =>
      .lift (ofDepth_mul_var kept opposite (neg_ne_zero.mpr nonzero)).2

theorem applyNegation_scaled (kept : ∀ number, ¬ allowed (.inexact number))
    (scaled : Scaled name value tree) (nonzero : value ≠ 0) :
    (applyNegation (Kernel.ofDepth (depth + 2)) tree).Ensures allowed (Scaled name (-value)) := by
  cases scaled with
  | alone =>
      refine applyNegation_var.mono ?_
      rintro _ ⟨outer, rfl⟩
      exact .negated
  | negated =>
      rw [neg_neg]
      exact .pure .alone
  | before isLeaf =>
      obtain ⟨number, inner, represents, rfl⟩ := isLeaf
      refine Rule.Succeeds.run_match (.orElse (.bind (.lift (negateNumber_leaf kept represents))
        fun _ opposite => .lift ?_)) fun _ holds => .pure holds
      exact (ofDepth_mul_var kept opposite (neg_ne_zero.mpr nonzero)).2
  | behind isLeaf =>
      obtain ⟨number, inner, represents, rfl⟩ := isLeaf
      refine Rule.Succeeds.run_match (.orElse (.bind (.lift (negateNumber_leaf kept represents))
        fun _ opposite => .lift ?_)) fun _ holds => .pure holds
      exact (ofDepth_mul_var kept opposite (neg_ne_zero.mpr nonzero)).2
  | @behindNegated value _ _ _ _ isLeaf =>
      obtain ⟨number, inner, represents, rfl⟩ := isLeaf
      refine Rule.Succeeds.run_match (.orElse (.bind (.lift (negateNumber_leaf kept represents))
        fun _ opposite => .lift ?_)) fun _ holds => .pure holds
      exact (ofDepth_mul_negated kept opposite nonzero).2

/-- A number times a variable with a coefficient, in either order. -/
theorem ofDepth_mul_scaled (depth : Nat) (kept : ∀ number, ¬ allowed (.inexact number))
    (scaled : Scaled name z tree) (zNonzero : z ≠ 0) (isLeaf : leaf.IsLeafOf w)
    (nonzero : w ≠ 0) :
    ((Kernel.ofDepth (depth + 4)).binary .mul tree leaf).Ensures allowed (Scaled name (z * w)) ∧
      ((Kernel.ofDepth (depth + 4)).binary .mul leaf tree).Ensures allowed
        (Scaled name (z * w)) := by
  have negates : ((Kernel.ofDepth (depth + 3)).negate tree).Ensures allowed (Scaled name (-z)) :=
    applyNegation_scaled kept scaled zNonzero
  have collects {factors : List Expr} (gathered : GatheredFactors name (z * w) factors) :
      (collect (Kernel.ofDepth (depth + 3)) .multiplicative ⟨factors, []⟩).Ensures allowed
        (Scaled name (z * w)) :=
    collect_factors kept (Kernel.ofDepth_negates kept name _) gathered
      (mul_ne_zero zNonzero nonzero)
  cases tree with
  | arith op left right outer =>
      obtain rfl : op = .mul := by cases scaled <;> rfl
      obtain ⟨gathered, fills, fillsSwapped⟩ := scaled.factors isLeaf
      have ⟨behind, before⟩ := gathered.append (.singleton isLeaf)
      have unsigned : mulSigns (Kernel.ofDepth (depth + 3)) (.arith .mul left right outer) leaf =
          failure ∧ mulSigns (Kernel.ofDepth (depth + 3)) leaf (.arith .mul left right outer) =
            failure := by
        obtain ⟨number, mark, _, rfl⟩ := isLeaf
        exact ⟨rfl, rfl⟩
      exact applyBinary_mul_scaled scaled isLeaf nonzero negates
        ⟨unsigned.1, collectOrBuild_collects _ rfl fills rfl (collects behind)⟩
        (.inr ⟨unsigned.2, collectOrBuild_collects _ rfl fillsSwapped rfl (collects before)⟩)
  | var other mark =>
      cases scaled
      rw [one_mul]
      exact ofDepth_mul_var kept isLeaf nonzero
  | unary op operand outer =>
      cases scaled
      rw [neg_one_mul]
      exact ofDepth_mul_negated kept isLeaf nonzero
  | _ => cases scaled

end Engine

end Products

end SymbolicAlgebra
