import SymbolicAlgebra.Proofs.NumericTerms

/-!
# Numbers added to a variable

A sum of exact numbers and one variable is given one of three forms: the variable
alone, a positive number subtracted from it, or any other number before it.

Each operator is looked at with a number on one side and a tree in one of these forms
on the other, and the result is in one of them again.
-/

namespace SymbolicAlgebra

open SymbolicAlgebra.Expr

/-- The real number is greater than zero. -/
def IsPositive (value : GaussianRational) : Prop := value.im = 0 ∧ 0 < value.re

/-- The real number is less than zero. -/
def IsNegative (value : GaussianRational) : Prop := value.im = 0 ∧ value.re < 0

theorem IsNegative.neg {value : GaussianRational} (negative : IsNegative value) :
    IsPositive (-value) :=
  ⟨by rw [QuadraticAlgebra.im_neg, negative.1, neg_zero],
    by rw [QuadraticAlgebra.re_neg]; exact neg_pos.mpr negative.2⟩

theorem IsPositive.neg {value : GaussianRational} (positive : IsPositive value) :
    IsNegative (-value) :=
  ⟨by rw [QuadraticAlgebra.im_neg, positive.1, neg_zero],
    by rw [QuadraticAlgebra.re_neg]; exact neg_neg_of_pos positive.2⟩

/-- A variable to which a number is added, in the form that sums are given. -/
inductive Shifted (name : String) : GaussianRational → Expr → Prop where
  | alone {mark : Mark} : Shifted name 0 (.var name mark)
  | less {value : GaussianRational} {leaf : Expr} {inner outer : Mark} :
      leaf.IsLeafOf value → IsPositive value →
        Shifted name (-value) (.arith .sub (.var name inner) leaf outer)
  | more {value : GaussianRational} {leaf : Expr} {inner outer : Mark} :
      leaf.IsLeafOf value → value ≠ 0 → ¬ IsNegative value →
        Shifted name value (.arith .add leaf (.var name inner) outer)

/-- The addends and subtrahends are numbers and one variable, which is added. -/
def Gathered (name : String) (value : GaussianRational) (terms : Terms) : Prop :=
  ∃ (mark : Mark) (numbers : List Expr) (up down : GaussianRational),
    terms.up.Perm (.var name mark :: numbers) ∧ Amounts .additive numbers up ∧
      Amounts .additive terms.down down ∧ (down = 0 ∨ IsPositive down) ∧ up - down = value

/-- At most one number is left beside the variable. -/
inductive Reduced (name : String) : GaussianRational → Terms → Prop where
  | up {rest : List Expr} {value : GaussianRational} {mark : Mark} :
      Remainder .additive rest value → Reduced name value ⟨.var name mark :: rest, []⟩
  | down {leaf : Expr} {value : GaussianRational} {mark : Mark} :
      leaf.IsLeafOf value → value = 0 ∨ IsPositive value →
        Reduced name (-value) ⟨[.var name mark], [leaf]⟩

section Sums

variable {kernel : Kernel} {allowed : Step → Prop} {name : String} {value : GaussianRational}
  {terms : Terms}

theorem cancel_reduced (kept : ∀ number, ¬ allowed (.inexact number)) {mark : Mark}
    {rest down : List Expr} {z w : GaussianRational} (remainder : Remainder .additive rest z)
    (subtracted : Remainder .additive down w) (notNegative : w = 0 ∨ IsPositive w) :
    (cancel kernel .additive (.var name mark :: rest) down).Ensures allowed
      (Reduced name (z - w)) := by
  cases subtracted with
  | none =>
      refine .pure ?_
      rw [show (Chain.additive.unit : GaussianRational) = 0 from rfl, sub_zero]
      exact .up remainder
  | @leaf term _ leaf =>
      have different : (sameKey .additive (.var name mark) term) = false := sameKey_var_leaf leaf
      cases remainder with
      | none =>
          have fails : (cancelOne kernel .additive term [.var name mark]).Ensures allowed
              fun _ => False := by
            have none : (cancelOne kernel .additive term []).Ensures allowed fun _ => False :=
              .failure
            rw [cancelOne, different]
            exact .orElse (.bind .guarded fun _ same => (Bool.false_ne_true same).elim)
              none.bind_none
          refine fails.run_none ?_
          have nothing : (cancel kernel .additive [.var name mark] []).Ensures allowed
              (· = ⟨[.var name mark], []⟩) := .pure rfl
          refine .bind nothing ?_
          rintro _ rfl
          rw [show (Chain.additive.unit : GaussianRational) = 0 from rfl, zero_sub]
          exact .pure (.down leaf notNegative)
      | @leaf other _ otherLeaf =>
          have succeeds : (cancelOne kernel .additive term [.var name mark, other]).Succeeds allowed
              fun remaining => ∃ difference, difference.IsLeafOf (z - w) ∧
                remaining = [.var name mark, difference] := by
            have merges : (cancelOne kernel .additive term [other]).Succeeds allowed
                fun remaining => ∃ difference, difference.IsLeafOf (z - w) ∧
                  remaining = [difference] := by
              unfold cancelOne
              rw [sameKey_leaves otherLeaf leaf]
              have passes : (guard (true = true) : Rule Unit).Succeeds allowed fun _ => True :=
                .pure trivial
              refine .orElse (.bind passes fun _ _ => .bind (mergePair_leaves
                (combine_sub_leaves kept otherLeaf leaf)) fun difference differenceLeaf => ?_)
              exact .pure ⟨difference, differenceLeaf, rfl⟩
            unfold cancelOne
            rw [different]
            refine .failure_orElse rfl (.bind merges ?_)
            rintro _ ⟨difference, differenceLeaf, rfl⟩
            exact .pure ⟨difference, differenceLeaf, rfl⟩
          refine succeeds.run_match ?_
          rintro _ ⟨difference, differenceLeaf, rfl⟩
          exact .pure (.up (.leaf differenceLeaf))

theorem tidyBoth_reduced (kept : ∀ number, ¬ allowed (.inexact number))
    (reduced : Reduced name value terms) :
    (tidyBoth kernel .additive terms).Ensures allowed (Reduced name value) := by
  cases reduced with
  | up remainder =>
      refine .bind (tidy_var kept remainder.amounts (.refl _)) ?_
      rintro _ ⟨rest, restRemainder, rfl⟩
      exact .bind (.pure rfl : Traced.Ensures allowed (tidy kernel .additive []) (· = []))
        fun _ empty => .pure (empty ▸ .up restRemainder)
  | @down leaf value mark isLeaf notNegative =>
      refine .bind (.pure rfl : Traced.Ensures allowed (tidy kernel .additive [.var name mark])
        (· = [.var name mark])) ?_
      rintro _ rfl
      refine .bind (.pure rfl : Traced.Ensures allowed (tidy kernel .additive [leaf])
        (· = [leaf])) ?_
      rintro _ rfl
      exact .pure (.down isLeaf notNegative)

/-- A number that is left over is subtracted when it is negative. -/
inductive Balanced (name : String) : GaussianRational → Terms → Prop where
  | none {mark : Mark} : Balanced name 0 ⟨[.var name mark], []⟩
  | less {leaf : Expr} {value : GaussianRational} {mark : Mark} :
      leaf.IsLeafOf value → value = 0 ∨ IsPositive value →
        Balanced name (-value) ⟨[.var name mark], [leaf]⟩
  | more {leaf : Expr} {value : GaussianRational} {mark : Mark} :
      leaf.IsLeafOf value → ¬ IsNegative value →
        Balanced name value ⟨[.var name mark, leaf], []⟩

theorem splitFlipped_leaf (kept : ∀ number, ¬ allowed (.inexact number)) {leaf : Expr}
    (isLeaf : leaf.IsLeafOf value) :
    (splitFlipped .additive [leaf]).Ensures allowed fun split =>
      (¬ IsNegative value ∧ split = ([leaf], [])) ∨
        IsNegative value ∧ ∃ opposite, opposite.IsLeafOf (-value) ∧ split = ([], [opposite]) := by
  obtain ⟨number, mark, represents, rfl⟩ := isLeaf
  by_cases negative : number.isNegative = true
  · have moves : (flipped .additive (.number number mark)).Succeeds allowed
        (·.IsLeafOf (-value)) := by
      rw [flipped, if_pos negative]
      exact .lift (negateNumber_leaf kept represents)
    refine moves.run_match fun opposite oppositeLeaf =>
      .pure (.inr ⟨?_, opposite, oppositeLeaf, rfl⟩)
    exact represents.isNegative_iff.mp negative
  · have stays : (flipped .additive (.number number mark)).Ensures allowed fun _ => False := by
      rw [flipped, if_neg negative]
      exact .failure
    refine stays.run_none (.pure (.inl ⟨?_, rfl⟩))
    exact mt represents.isNegative_iff.mpr negative

theorem balance_reduced (kept : ∀ number, ¬ allowed (.inexact number))
    (reduced : Reduced name value terms) :
    (balance .additive terms).Ensures allowed (Balanced name value) := by
  have nothing : (splitFlipped .additive []).Ensures allowed (· = ([], [])) := .pure rfl
  have variableStays {mark : Mark} {rest : List Expr} {split : List Expr × List Expr → Prop}
      (ensures : (splitFlipped .additive rest).Ensures allowed split) :
      (splitFlipped .additive (.var name mark :: rest)).Ensures allowed fun result =>
        ∃ others, split others ∧ result = (.var name mark :: others.1, others.2) := by
    have stays : (flipped .additive (.var name mark)).Ensures allowed fun _ => False := .failure
    refine stays.run_none ?_
    exact .bind ensures fun others holds => .pure ⟨others, holds, rfl⟩
  cases reduced with
  | up remainder =>
      cases remainder with
      | none =>
          refine .bind (variableStays nothing) ?_
          rintro _ ⟨_, rfl, rfl⟩
          refine .bind nothing ?_
          rintro _ rfl
          exact .pure .none
      | leaf isLeaf =>
          refine .bind (variableStays (splitFlipped_leaf kept isLeaf)) ?_
          rintro _ ⟨_, ⟨notNegative, rfl⟩ | ⟨negative, opposite, isOpposite, rfl⟩, rfl⟩
          · refine .bind nothing ?_
            rintro _ rfl
            exact .pure (.more isLeaf notNegative)
          · refine .bind nothing ?_
            rintro _ rfl
            rw [← neg_neg value]
            exact .pure (.less isOpposite (.inr negative.neg))
  | down isLeaf notNegative =>
      refine .bind (variableStays nothing) ?_
      rintro _ ⟨_, rfl, rfl⟩
      refine .bind (splitFlipped_leaf kept isLeaf) ?_
      rintro _ (⟨_, rfl⟩ | ⟨negative, _⟩)
      · exact .pure (.less isLeaf notNegative)
      · rcases notNegative with rfl | positive
        · exact absurd negative.2 (lt_irrefl 0)
        · exact absurd negative.2 (not_lt_of_gt positive.2)

theorem Balanced.sorted (balanced : Balanced name value terms) :
    sortTerms .additive terms.up = terms.up ∧ sortTerms .additive terms.down = terms.down := by
  cases balanced with
  | none | less => exact ⟨rfl, rfl⟩
  | more isLeaf _ =>
      obtain ⟨number, mark, _, rfl⟩ := isLeaf
      exact ⟨rfl, rfl⟩

theorem foldAdditive_balanced (balanced : Balanced name value terms) :
    (foldAdditive ⟨terms.up.filter (!Chain.additive.isNeutral ·),
      terms.down.filter (!Chain.additive.isNeutral ·)⟩).Ensures (Shifted name value) := by
  have variableKept (mark : Mark) : Chain.additive.isNeutral (.var name mark) = false := rfl
  cases balanced with
  | none => exact .pure .alone
  | @less leaf value mark isLeaf notNegative =>
      obtain ⟨number, inner, represents, rfl⟩ := isLeaf
      by_cases zero : number.isZero = true
      · have neutral : Chain.additive.isNeutral (.number number inner) = true := zero
        obtain rfl := represents.isZero_iff.mp zero
        simp only [List.filter_cons, neutral, variableKept, neg_zero]
        exact .pure .alone
      · have kept : Chain.additive.isNeutral (.number number inner) = false :=
          Bool.eq_false_iff.mpr zero
        simp only [List.filter_cons, kept, variableKept]
        refine .make fun mark => .less ⟨number, inner, represents, rfl⟩ ?_
        exact notNegative.resolve_left (mt represents.isZero_iff.mpr zero)
  | @more leaf value mark isLeaf notNegative =>
      obtain ⟨number, inner, represents, rfl⟩ := isLeaf
      by_cases zero : number.isZero = true
      · have neutral : Chain.additive.isNeutral (.number number inner) = true := zero
        obtain rfl := represents.isZero_iff.mp zero
        simp only [List.filter_cons, neutral, variableKept]
        exact .pure .alone
      · have kept : Chain.additive.isNeutral (.number number inner) = false :=
          Bool.eq_false_iff.mpr zero
        simp only [List.filter_cons, kept, variableKept]
        refine .make fun mark => .more ⟨number, inner, represents, rfl⟩ ?_ notNegative
        exact mt represents.isZero_iff.mpr zero

theorem collect_gathered (kept : ∀ number, ¬ allowed (.inexact number))
    (gathered : Gathered name value terms) :
    (collect kernel .additive terms).Ensures allowed (Shifted name value) := by
  obtain ⟨mark, numbers, up, down, permuted, amounts, subtracted, notNegative, rfl⟩ := gathered
  have settles : (settle kernel .additive terms).Ensures allowed (Balanced name (up - down)) := by
    refine .bind (.bind (tidy_var kept amounts permuted) ?_ : Traced.Ensures allowed
      (tidyBoth kernel .additive terms) fun tidied => ∃ rest, Remainder .additive rest up ∧
        tidied.up = .var name mark :: rest ∧ Remainder .additive tidied.down down) ?_
    · rintro _ ⟨rest, remainder, rfl⟩
      exact .bind (tidy_numbers kept subtracted) fun _ remaining =>
        .pure ⟨rest, remainder, rfl, remaining⟩
    · rintro ⟨_, others⟩ ⟨rest, remainder, rfl, remaining⟩
      refine .bind (cancel_reduced kept remainder remaining notNegative) fun _ reduced =>
        .bind (tidyBoth_reduced kept reduced) fun _ merged =>
          .bind (balance_reduced kept merged) fun _ balanced => .pure ?_
      rw [balanced.sorted.1, balanced.sorted.2]
      exact balanced
  exact collect_sum settles fun _ balanced => foldAdditive_balanced balanced

section Operators

variable {tree leaf : Expr} {z w : GaussianRational}

theorem Shifted.isConstant (shifted : Shifted name value tree) : tree.isConstant = false := by
  cases shifted <;> rfl

theorem Shifted.isZero (shifted : Shifted name value tree) : tree.isZero = false := by
  cases shifted <;> rfl

theorem Shifted.isNumber (shifted : Shifted name value tree) : tree.isNumber = false := by
  cases shifted <;> rfl

theorem Shifted.splitCoefficient (shifted : Shifted name value tree) :
    splitCoefficient tree = pure (.int 1, tree) := by
  cases shifted <;> rfl

theorem Shifted.negated (shifted : Shifted name value tree) : negated kernel tree = failure := by
  cases shifted <;> rfl

theorem Shifted.bne_leaf (shifted : Shifted name value tree) (isLeaf : leaf.IsLeafOf w) :
    (tree == leaf) = false := by
  obtain ⟨number, mark, _, rfl⟩ := isLeaf
  cases shifted <;> rfl

/-- A number and a tree in one of the final forms are left to the identities. -/
theorem Shifted.combine_eq_identities (shifted : Shifted name value tree)
    (isLeaf : leaf.IsLeafOf w) (op : ArithOp) :
    combine kernel op tree leaf = identities kernel op tree leaf ∧
      combine kernel op leaf tree = identities kernel op leaf tree := by
  obtain ⟨number, mark, represents, rfl⟩ := isLeaf
  have noError : tree.isError = false := by cases shifted <;> rfl
  have noArray : tree.asArray? = none := by cases shifted <;> rfl
  have exact : (Expr.number number mark).isError = false := isError_number represents.isExact
  exact ⟨SymbolicAlgebra.combine_eq_identities ⟨noError, exact⟩ ⟨noArray, rfl⟩
      (.inl shifted.isConstant),
    SymbolicAlgebra.combine_eq_identities ⟨exact, noError⟩ ⟨rfl, noArray⟩
      (.inr shifted.isConstant)⟩

/-- A number and a tree in one of the final forms are no like terms. -/
theorem Shifted.likeTerms_eq (shifted : Shifted name value tree) (isLeaf : leaf.IsLeafOf w)
    (subtract : Bool) :
    likeTerms kernel subtract tree leaf = failure ∧
      likeTerms kernel subtract leaf tree = failure := by
  have different := shifted.bne_leaf isLeaf
  have isNumber := shifted.isNumber
  obtain ⟨number, mark, represents, rfl⟩ := isLeaf
  unfold likeTerms
  rw [shifted.splitCoefficient]
  constructor
  · change (if (tree.isNumber || !(tree == .number number mark)) = true then
      (failure : Rule Expr) else _) = _
    rw [isNumber, different, if_pos (by rfl)]
  · rfl

theorem negated_leaf (kept : ∀ number, ¬ allowed (.inexact number)) (isLeaf : leaf.IsLeafOf w) :
    (IsNegative w ∧ (negated kernel leaf).Succeeds allowed (·.IsLeafOf (-w))) ∨
      (¬ IsNegative w ∧ negated kernel leaf = failure) := by
  obtain ⟨number, mark, represents, rfl⟩ := isLeaf
  rw [negated]
  by_cases negative : number.isNegative = true
  · rw [if_pos negative]
    exact .inl ⟨represents.isNegative_iff.mp negative, .lift (negateNumber_leaf kept represents)⟩
  · rw [if_neg negative]
    exact .inr ⟨mt represents.isNegative_iff.mpr negative, rfl⟩

theorem IsPositive.not_isNegative (positive : IsPositive w) : ¬ IsNegative w :=
  fun negative => lt_asymm positive.2 negative.2

theorem IsPositive.ne_zero (positive : IsPositive w) : w ≠ 0 := by
  rintro rfl
  exact lt_irrefl 0 positive.2

theorem IsPositive.add (zPositive : IsPositive z) (wPositive : IsPositive w) :
    IsPositive (z + w) :=
  ⟨by rw [QuadraticAlgebra.im_add, zPositive.1, wPositive.1, add_zero],
    by rw [QuadraticAlgebra.re_add]; exact add_pos zPositive.2 wPositive.2⟩

/-- A positive number is subtracted from a variable with a number. -/
theorem applyBinary_sub_shifted (kept : ∀ number, ¬ allowed (.inexact number))
    (shifted : Shifted name z tree) (isLeaf : leaf.IsLeafOf w) (positive : IsPositive w) :
    (applyBinary kernel .sub tree leaf).Ensures allowed (Shifted name (z - w)) := by
  have fails : (combine kernel .sub tree leaf).Ensures allowed fun _ => False := by
    have notZero : leaf.isZero = false := by
      obtain ⟨number, mark, represents, rfl⟩ := isLeaf
      exact Bool.eq_false_iff.mpr (mt represents.isZero_iff.mp positive.ne_zero)
    rw [(shifted.combine_eq_identities isLeaf .sub).1]
    simp only [identities, subIdentities, shifted.isZero, notZero, shifted.bne_leaf isLeaf]
    rw [(shifted.likeTerms_eq isLeaf true).1]
    rcases negated_leaf kept isLeaf with ⟨negative, _⟩ | ⟨_, unsigned⟩
    · exact absurd negative positive.not_isNegative
    · rw [unsigned]
      exact .failure
  refine fails.run_none ?_
  have subtracted : Amounts .additive [leaf] w := .singleton isLeaf
  obtain ⟨number, mark, represents, rfl⟩ := isLeaf
  cases shifted with
  | @alone inner =>
      rw [zero_sub]
      exact collectOrBuild_builds ⟨[.var name inner], [.number number mark]⟩ rfl rfl rfl
        fun outer => .less ⟨number, mark, represents, rfl⟩ positive
  | @less value other inner outer otherLeaf otherPositive =>
      obtain ⟨otherNumber, otherMark, otherRepresents, rfl⟩ := otherLeaf
      refine collectOrBuild_collects
        ⟨[.var name inner], [.number otherNumber otherMark, .number number mark]⟩ rfl rfl rfl ?_
      exact collect_gathered kept ⟨inner, [], 0, value + w, .refl _, .nil,
        .cons ⟨_, _, otherRepresents, rfl⟩ subtracted, .inr (otherPositive.add positive), by ring⟩
  | @more _ other inner outer otherLeaf _ _ =>
      obtain ⟨otherNumber, otherMark, otherRepresents, rfl⟩ := otherLeaf
      refine collectOrBuild_collects
        ⟨[.number otherNumber otherMark, .var name inner], [.number number mark]⟩ rfl rfl rfl ?_
      exact collect_gathered kept ⟨inner, [.number otherNumber otherMark], z, w, .swap _ _ _,
        .singleton ⟨_, _, otherRepresents, rfl⟩, subtracted, .inr positive, rfl⟩

/-- The terms of a variable with a number and of a number that is not negative. -/
theorem collectOrBuild_add_shifted (kept : ∀ number, ¬ allowed (.inexact number))
    (shifted : Shifted name z tree) (isLeaf : leaf.IsLeafOf w) :
    (collectOrBuild kernel .add tree leaf).Ensures allowed (Shifted name (z + w)) ∧
      (collectOrBuild kernel .add leaf tree).Ensures allowed (Shifted name (z + w)) := by
  have added : Amounts .additive [leaf] w := .singleton isLeaf
  obtain ⟨number, mark, represents, rfl⟩ := isLeaf
  cases shifted with
  | @alone inner =>
      have gathered (terms : Terms) (up : terms.up.Perm [.var name inner, .number number mark])
          (down : terms.down = []) : Gathered name (0 + w) terms :=
        ⟨inner, _, w, 0, up, added, down ▸ .nil, .inl rfl, by ring⟩
      exact ⟨collectOrBuild_collects ⟨[.var name inner, .number number mark], []⟩ rfl rfl rfl
          (collect_gathered kept (gathered _ (.refl _) rfl)),
        collectOrBuild_collects ⟨[.number number mark, .var name inner], []⟩ rfl rfl rfl
          (collect_gathered kept (gathered _ (.swap _ _ _) rfl))⟩
  | @less value other inner outer otherLeaf otherPositive =>
      have subtracted : Amounts .additive [other] value := .singleton otherLeaf
      obtain ⟨otherNumber, otherMark, _, rfl⟩ := otherLeaf
      have gathered (terms : Terms) (up : terms.up.Perm [.var name inner, .number number mark])
          (down : terms.down = [.number otherNumber otherMark]) :
          Gathered name (-value + w) terms :=
        ⟨inner, _, w, value, up, added, down ▸ subtracted, .inr otherPositive, by ring⟩
      exact ⟨collectOrBuild_collects
          ⟨[.var name inner, .number number mark], [.number otherNumber otherMark]⟩ rfl rfl rfl
          (collect_gathered kept (gathered _ (.refl _) rfl)),
        collectOrBuild_collects
          ⟨[.number number mark, .var name inner], [.number otherNumber otherMark]⟩ rfl rfl rfl
          (collect_gathered kept (gathered _ (.swap _ _ _) rfl))⟩
  | @more _ other inner outer otherLeaf _ _ =>
      have numbers : Amounts .additive [other, .number number mark] (z + w) := .cons otherLeaf added
      obtain ⟨otherNumber, otherMark, _, rfl⟩ := otherLeaf
      have gathered (terms : Terms) (up : terms.up.Perm
          [.var name inner, .number otherNumber otherMark, .number number mark])
          (down : terms.down = []) : Gathered name (z + w) terms :=
        ⟨inner, _, z + w, 0, up, numbers, down ▸ .nil, .inl rfl, by ring⟩
      exact ⟨collectOrBuild_collects
          ⟨[.number otherNumber otherMark, .var name inner, .number number mark], []⟩ rfl rfl rfl
          (collect_gathered kept (gathered _ (.swap _ _ _) rfl)),
        collectOrBuild_collects
          ⟨[.number number mark, .number otherNumber otherMark, .var name inner], []⟩ rfl rfl rfl
          (collect_gathered kept (gathered _ (List.reverse_perm _).symm rfl))⟩

/-- A number is added to a variable with a number, in either order. -/
theorem applyBinary_add_shifted (kept : ∀ number, ¬ allowed (.inexact number))
    (subtracts : ∀ {tree leaf : Expr} {z w : GaussianRational}, Shifted name z tree →
      leaf.IsLeafOf w → IsPositive w →
        (kernel.binary .sub tree leaf).Ensures allowed (Shifted name (z - w)))
    (shifted : Shifted name z tree) (isLeaf : leaf.IsLeafOf w) :
    (applyBinary kernel .add tree leaf).Ensures allowed (Shifted name (z + w)) ∧
      (applyBinary kernel .add leaf tree).Ensures allowed (Shifted name (z + w)) := by
  have ⟨collects, collectsSwapped⟩ : (collectOrBuild kernel .add tree leaf).Ensures allowed _ ∧
    (collectOrBuild kernel .add leaf tree).Ensures allowed _ :=
      collectOrBuild_add_shifted kept shifted isLeaf
  unfold applyBinary
  rw [(shifted.combine_eq_identities isLeaf .add).1, (shifted.combine_eq_identities isLeaf .add).2]
  simp only [identities, addIdentities, shifted.isZero, shifted.negated, Bool.false_eq_true,
    if_false, (shifted.likeTerms_eq isLeaf false).1, (shifted.likeTerms_eq isLeaf false).2]
  by_cases zero : leaf.isZero = true
  · obtain rfl : w = 0 := by
      obtain ⟨number, mark, represents, rfl⟩ := isLeaf
      exact represents.isZero_iff.mp zero
    rw [zero, add_zero, if_pos rfl, if_pos rfl]
    exact ⟨.pure shifted, .pure shifted⟩
  · rw [if_neg zero, if_neg zero]
    rcases negated_leaf kept isLeaf with ⟨negative, positive⟩ | ⟨notNegative, unsigned⟩
    · have difference : (do
          let opposite ← negated kernel leaf
          liftM (kernel.binary .sub tree opposite)).Succeeds allowed (Shifted name (z + w)) := by
        refine .bind positive fun opposite oppositeLeaf => .lift ?_
        rw [← sub_neg_eq_add]
        exact subtracts shifted oppositeLeaf negative.neg
      exact ⟨Rule.Succeeds.run_match (.failure_orElse rfl (.orElse difference)) fun _ holds =>
          .pure holds,
        Rule.Succeeds.run_match (.failure_orElse rfl (.failure_orElse rfl difference))
          fun _ holds => .pure holds⟩
    · have unmatched (first second : Expr) : (failure <|>
          (do
            let opposite ← failure
            liftM (kernel.binary .sub first opposite)) <|>
          (do
            let opposite ← failure
            liftM (kernel.binary .sub second opposite)) : Rule Expr).Ensures allowed
              fun _ => False :=
        .orElse .failure (.orElse (.bind_none .failure) (.bind_none .failure))
      rw [unsigned]
      refine ⟨Rule.Ensures.run_none ?_ collects, Rule.Ensures.run_none ?_ collectsSwapped⟩
      · exact unmatched tree leaf
      · exact unmatched leaf tree

end Operators

end Sums

end SymbolicAlgebra
