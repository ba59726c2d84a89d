import SymbolicAlgebra.Proofs.Monomials

/-!
# Collecting factors

Factors with positive exponents are collected into a quotient in which every variable
stands at most once above the fraction bar and at most once below it.  Where it stands on
both sides, the exponent above is the smaller one: such a pair is the only one that
cancelling leaves.

Sorting puts factors with one key next to each other, and then each of them is absorbed
by the one before it.
-/

namespace SymbolicAlgebra

open SymbolicAlgebra.Expr

/-- A positive number, or a variable with a positive exponent. -/
abbrev Expr.IsTerm (tree : Expr) : Prop := tree.IsFactor (0 < ·)

/-- The key that a factor is sorted by. -/
abbrev factorKey (tree : Expr) : TermKey := TermKey.of .multiplicative tree

/-- The net exponent of a variable in some factors. -/
def degrees (name : String) (terms : List Expr) : ℤ := (terms.map (degree name)).sum

section Terms

variable {name : String} {term other : Expr} {terms : List Expr} {m : ℤ}

@[simp] theorem degrees_nil : degrees name [] = 0 := rfl

@[simp] theorem degrees_cons :
    degrees name (term :: terms) = term.degree name + degrees name terms :=
  List.sum_cons

theorem degrees_perm {others : List Expr} (permuted : terms.Perm others) :
    degrees name terms = degrees name others :=
  (permuted.map (degree name)).sum_eq

theorem Expr.IsPowerOf.factorKey (power : term.IsPowerOf name m) : factorKey term = .var name := by
  cases power <;> rfl

/-- Only factors of a variable count for its degree. -/
theorem Expr.IsTerm.degree_cases (isTerm : term.IsTerm) (name : String) :
    (factorKey term = .var name ∧ 0 < term.degree name ∧
        term.exponents name = [term.degree name]) ∨
      factorKey term ≠ .var name ∧ term.degree name = 0 ∧ term.exponents name = [] := by
  cases isTerm with
  | number leaf positive =>
      exact .inr ⟨by rw [factorKey, leaf.key]; nofun, leaf.degree, leaf.exponents⟩
  | @power other exponent _ power positive =>
      rw [power.factorKey, power.degree, power.exponents]
      by_cases same : other = name
      · subst same
        rw [if_pos rfl, if_pos rfl]
        exact .inl ⟨rfl, positive, rfl⟩
      · rw [if_neg same, if_neg same]
        exact .inr ⟨by simpa using same, rfl, rfl⟩

theorem degree_nonneg (isTerm : term.IsTerm) (name : String) : 0 ≤ term.degree name := by
  rcases isTerm.degree_cases name with ⟨_, positive, _⟩ | ⟨_, zero, _⟩
  · exact positive.le
  · exact zero.ge

theorem degrees_nonneg (isTerm : ∀ term ∈ terms, term.IsTerm) (name : String) :
    0 ≤ degrees name terms := by
  induction terms with
  | nil => exact le_refl 0
  | cons term terms ih =>
      rw [List.forall_mem_cons] at isTerm
      rw [degrees_cons]
      exact add_nonneg (degree_nonneg isTerm.1 name) (ih isTerm.2)

end Terms

/-! ## Merging factors of one key -/

section Tidying

variable {kernel : Kernel} {allowed : Step → Prop} {nearest term : Expr}
  {terms : List Expr}

/-- Factors of one key are numbers or powers of one variable. -/
theorem Expr.IsTerm.sameKey_cases (nearestTerm : nearest.IsTerm) (isTerm : term.IsTerm)
    (same : factorKey nearest = factorKey term) :
    (∃ p q, 0 < p ∧ 0 < q ∧ nearest.IsLeafOf ⟨p, 0⟩ ∧ term.IsLeafOf ⟨q, 0⟩) ∨
      ∃ name m n, 0 < m ∧ 0 < n ∧ nearest.IsPowerOf name m ∧ term.IsPowerOf name n := by
  cases nearestTerm with
  | number nearestLeaf nearestPositive =>
      cases isTerm with
      | number leaf positive => exact .inl ⟨_, _, nearestPositive, positive, nearestLeaf, leaf⟩
      | power power _ =>
          rw [power.factorKey, factorKey, nearestLeaf.key] at same
          cases same
  | power nearestPower nearestPositive =>
      cases isTerm with
      | number leaf _ =>
          rw [nearestPower.factorKey, factorKey, leaf.key] at same
          cases same
      | power power positive =>
          rw [nearestPower.factorKey, power.factorKey] at same
          obtain rfl := TermKey.var.inj same
          exact .inr ⟨_, _, _, nearestPositive, positive, nearestPower, power⟩

/-- Two factors have become one of the same key. -/
structure Joins (first second merged : Expr) : Prop where
  isTerm : merged.IsTerm
  key : factorKey merged = factorKey first
  degree : ∀ name, merged.degree name = first.degree name + second.degree name

theorem mergePair_succeeds {op : ArithOp} {condition : Expr → Prop}
    (combined : (combine kernel op nearest term).Succeeds allowed condition)
    (joined : ∀ merged, condition merged → isApplicationOf op merged = false) :
    (mergePair kernel op nearest term).Succeeds allowed condition := by
  refine .bind combined fun merged holds => ?_
  rw [joined merged holds]
  have passes : (guard ((!false) = true) : Rule Unit).Succeeds allowed fun _ => True :=
    .pure trivial
  exact passes.bind fun _ _ => .pure holds

theorem combine_mul_leaves (kept : ∀ number, ¬ allowed (.inexact number)) {p q : ℚ}
    (leaf : nearest.IsLeafOf ⟨p, 0⟩) (otherLeaf : term.IsLeafOf ⟨q, 0⟩) :
    (combine kernel .mul nearest term).Succeeds allowed (·.IsLeafOf ⟨p * q, 0⟩) := by
  have product : (⟨p, 0⟩ * ⟨q, 0⟩ : GaussianRational) = ⟨p * q, 0⟩ :=
    QuadraticAlgebra.ext (by simp) (by simp)
  rw [← product]
  exact combine_leaves kept .multiplicative leaf otherLeaf

theorem mergePair_joins (kept : ∀ number, ¬ allowed (.inexact number))
    (raises : kernel.Raises allowed) (nearestTerm : nearest.IsTerm) (isTerm : term.IsTerm)
    (same : factorKey nearest = factorKey term) :
    (mergePair kernel .mul nearest term).Succeeds allowed (Joins nearest term) := by
  rcases nearestTerm.sameKey_cases isTerm same with
    ⟨p, q, pPositive, qPositive, nearestLeaf, leaf⟩ |
      ⟨name, m, n, mPositive, nPositive, nearestPower, power⟩
  · refine (mergePair_leaves (combine_mul_leaves kept nearestLeaf leaf)).mono ?_
    intro merged mergedLeaf
    refine ⟨.number mergedLeaf (mul_pos pPositive qPositive), ?_, fun name => ?_⟩
    · rw [factorKey, factorKey, mergedLeaf.key, nearestLeaf.key]
    · rw [mergedLeaf.degree, nearestLeaf.degree, leaf.degree, add_zero]
  · refine (mergePair_succeeds (combine_mul_powers raises nearestPower power)
      fun merged mergedPower => mergedPower.isApplicationOf (by decide)).mono ?_
    intro merged mergedPower
    rw [IsPowerOrOne, if_neg (by omega)] at mergedPower
    refine ⟨.power mergedPower (by omega), ?_, fun name => ?_⟩
    · rw [mergedPower.factorKey, nearestPower.factorKey]
    · rw [mergedPower.degree, nearestPower.degree, power.degree]
      split <;> simp

/-- The factors have different keys, and the degrees are those of the source. -/
structure Tidied (source terms : List Expr) : Prop where
  isTerm : ∀ term ∈ terms, term.IsTerm
  distinct : (terms.map factorKey).Nodup
  degrees : ∀ name, degrees name terms = degrees name source

/-- Merging factors of one key keeps the net exponents. -/
theorem factors_mergeInvariant (kept : ∀ number, ¬ allowed (.inexact number))
    (raises : kernel.Raises allowed) (total : String → ℤ) :
    MergeInvariant kernel allowed .multiplicative fun terms =>
      (∀ term ∈ terms, term.IsTerm) ∧ ∀ name, degrees name terms = total name where
  perm permuted holds := ⟨fun term member => holds.1 term (permuted.mem_iff.mpr member),
    fun name => (degrees_perm permuted).symm.trans (holds.2 name)⟩
  merges {first second rest} holds same := by
    obtain ⟨isTerm, total⟩ := holds
    rw [List.forall_mem_cons, List.forall_mem_cons] at isTerm
    refine (mergePair_joins kept raises isTerm.1 isTerm.2.1 same).mono fun merged joins => ?_
    refine ⟨joins.key, List.forall_mem_cons.mpr ⟨joins.isTerm, isTerm.2.2⟩, fun name => ?_⟩
    rw [← total name, degrees_cons, degrees_cons, degrees_cons, joins.degree, add_assoc]

theorem tidy_tidies (kept : ∀ number, ¬ allowed (.inexact number))
    (raises : kernel.Raises allowed) (isTerm : ∀ term ∈ terms, term.IsTerm) :
    (tidy kernel .multiplicative terms).Ensures allowed (Tidied terms) := by
  have invariant := factors_mergeInvariant kept raises fun name => degrees name terms
  refine (invariant.tidy_keeps ⟨isTerm, fun _ => rfl⟩).mono fun tidied holds => ?_
  exact ⟨holds.1.1, holds.2, holds.1.2⟩

end Tidying

/-! ## Cancelling -/

section Cancelling

variable {kernel : Kernel} {allowed : Step → Prop} {candidate term : Expr}
  {terms up down rest : List Expr} {name : String}

/-- The exponents of a variable in some factors. -/
def exponentsOf (name : String) (terms : List Expr) : List ℤ := terms.flatMap (exponents name)

theorem sum_exponentsOf : (exponentsOf name terms).sum = degrees name terms := by
  induction terms with
  | nil => rfl
  | cons term terms ih =>
      rw [exponentsOf, List.flatMap_cons, List.sum_append, ← exponentsOf, ih, degrees_cons]
      rfl

/-- No variable stands in more than one of the factors. -/
def Single (terms : List Expr) : Prop := ∀ name, (exponentsOf name terms).length ≤ 1

theorem length_exponentsOf_cons : (exponentsOf name (term :: terms)).length =
    (term.exponents name).length + (exponentsOf name terms).length := by
  simp [exponentsOf]

/-- Factors of different keys hold different variables. -/
theorem single_of_nodup (isTerm : ∀ term ∈ terms, term.IsTerm)
    (distinct : (terms.map factorKey).Nodup) : Single terms := by
  intro name
  induction terms with
  | nil => exact Nat.zero_le 1
  | cons term rest ih =>
      rw [List.forall_mem_cons] at isTerm
      rw [List.map_cons, List.nodup_cons] at distinct
      rw [length_exponentsOf_cons]
      rcases isTerm.1.degree_cases name with ⟨key, _, exponents⟩ | ⟨_, _, exponents⟩
      · have absent : exponentsOf name rest = [] := by
          refine List.flatMap_eq_nil_iff.mpr fun other member => ?_
          rcases (isTerm.2 other member).degree_cases name with ⟨otherKey, _, _⟩ | ⟨_, _, none⟩
          · rw [key, ← otherKey] at distinct
            exact absurd (List.mem_map_of_mem member) distinct.1
          · exact none
        rw [exponents, absent]
        rfl
      · rw [exponents, List.length_nil, zero_add]
        exact ih isTerm.2 distinct.2

theorem Tidied.single (tidied : Tidied terms rest) : Single rest :=
  single_of_nodup tidied.isTerm tidied.distinct

/-- A factor has been divided by another: the degrees are subtracted, and no variable
comes in. -/
structure Divides (candidate term merged : Expr) : Prop where
  isTerm : merged.IsTerm
  degree : ∀ name, merged.degree name = candidate.degree name - term.degree name
  fewer : ∀ name, (merged.exponents name).length ≤ (candidate.exponents name).length

theorem combine_div_leaves (kept : ∀ number, ¬ allowed (.inexact number)) {p q : ℚ}
    (leaf : candidate.IsLeafOf ⟨p, 0⟩) (otherLeaf : term.IsLeafOf ⟨q, 0⟩) (nonzero : q ≠ 0) :
    (combine kernel .div candidate term).Succeeds allowed (·.IsLeafOf ⟨p / q, 0⟩) := by
  obtain ⟨x, inner, xRepresents, rfl⟩ := leaf
  obtain ⟨y, outer, yRepresents, rfl⟩ := otherLeaf
  have divisor := Number.IsFraction.of_represents yRepresents
  have defined : ArithOp.div.isUndefinedAt x y = false :=
    Bool.eq_false_iff.mpr (mt divisor.eq_zero_of_isExactZero nonzero)
  refine Traced.Ensures.mono
    (combine_succeeds kept xRepresents.isExact yRepresents.isExact defined) ?_
  rintro _ ⟨quotient, rfl, exact, mark, rfl⟩
  have computed := (Number.IsFraction.of_represents xRepresents).div divisor exact
  exact ⟨_, rfl, _, mark, computed.2, rfl⟩

theorem isLeafOf_one (mark : Mark) : IsLeafOf ⟨1, 0⟩ (.number (.int 1) mark) :=
  ⟨.int 1, mark, ⟨inRange_one, congrArg some (QuadraticAlgebra.ext Int.cast_one rfl)⟩, rfl⟩

theorem Expr.IsPowerOf.divides {merged : Expr} {m n : ℤ}
    (candidatePower : candidate.IsPowerOf name m) (power : term.IsPowerOf name n) (smaller : n ≤ m)
    (quotient : merged.IsPowerOrOne name (m - n)) : Divides candidate term merged := by
  rw [IsPowerOrOne] at quotient
  split at quotient
  · rename_i equal
    obtain ⟨mark, rfl⟩ := quotient
    refine ⟨.number (isLeafOf_one mark) one_pos, fun other => ?_, fun other => ?_⟩
    · rw [(isLeafOf_one mark).degree, candidatePower.degree, power.degree]
      split <;> omega
    · rw [(isLeafOf_one mark).exponents]
      exact Nat.zero_le _
  · refine ⟨.power quotient (by omega), fun other => ?_, fun other => ?_⟩
    · rw [quotient.degree, candidatePower.degree, power.degree]
      split <;> simp
    · rw [quotient.exponents, candidatePower.exponents]
      split <;> rfl

/-- A factor is divided by another of its key, unless its exponent is too small. -/
theorem mergePair_decides (kept : ∀ number, ¬ allowed (.inexact number))
    (raises : kernel.Raises allowed) (candidateTerm : candidate.IsTerm) (isTerm : term.IsTerm)
    (same : factorKey candidate = factorKey term) :
    (mergePair kernel .div candidate term).Decides allowed (Divides candidate term)
      (∀ name, 0 < term.degree name → candidate.degree name < term.degree name) := by
  rcases candidateTerm.sameKey_cases isTerm same with
    ⟨p, q, pPositive, qPositive, candidateLeaf, leaf⟩ |
      ⟨name, m, n, mPositive, nPositive, candidatePower, power⟩
  · refine Rule.Succeeds.decides ((mergePair_leaves (combine_div_leaves kept candidateLeaf leaf
      qPositive.ne')).mono fun merged mergedLeaf => ?_)
    refine ⟨.number mergedLeaf (div_pos pPositive qPositive), fun name => ?_, fun name => ?_⟩
    · rw [mergedLeaf.degree, candidateLeaf.degree, leaf.degree, sub_zero]
    · rw [mergedLeaf.exponents, candidateLeaf.exponents]
  · have combined : (combine kernel .div candidate term).Succeeds allowed (IsQuotientOf name m n) :=
      combine_div_powers raises candidatePower power
    by_cases smaller : n ≤ m
    · have whole : (combine kernel .div candidate term).Succeeds allowed
          (IsPowerOrOne name (m - n)) := by
        refine combined.mono fun merged quotient => ?_
        rwa [IsQuotientOf, if_pos smaller] at quotient
      refine Rule.Succeeds.decides ((mergePair_succeeds whole ?_).mono ?_)
      · exact fun _ quotient => quotient.isApplicationOf (by decide)
      · exact fun _ quotient => candidatePower.divides power smaller quotient
    · -- The merged node is a quotient again, which is no merge.
      refine combined.decides.bind fun merged quotient => ?_
      rw [IsQuotientOf, if_neg smaller] at quotient
      obtain ⟨below, mark, _, rfl⟩ := quotient
      have rejected : (guard ((!isApplicationOf .div (.arith .div (.int 1) below mark)) = true) :
          Rule Unit) = failure := rfl
      rw [rejected]
      refine .failure fun other positive => ?_
      rw [power.degree] at positive ⊢
      rw [candidatePower.degree]
      split at positive <;> simp_all

/-- An inverse factor has been taken out of the factors above. -/
structure Reduces (term : Expr) (up remaining : List Expr) : Prop where
  isTerm : ∀ factor ∈ remaining, factor.IsTerm
  degrees : ∀ name, degrees name remaining = degrees name up - term.degree name
  fewer : ∀ name, (exponentsOf name remaining).length ≤ (exponentsOf name up).length

theorem Single.tail (single : Single (term :: terms)) : Single terms := by
  intro name
  have atMost := single name
  rw [length_exponentsOf_cons] at atMost
  omega

/-- Other factors do not hold the variables of the first one. -/
theorem Single.degrees_eq_zero (single : Single (term :: terms)) (isTerm : term.IsTerm)
    (positive : 0 < term.degree name) : degrees name terms = 0 := by
  have atMost := single name
  rcases isTerm.degree_cases name with ⟨_, _, exponents⟩ | ⟨_, zero, _⟩
  · rw [length_exponentsOf_cons, exponents, List.length_singleton] at atMost
    have absent : exponentsOf name terms = [] := List.length_eq_zero_iff.mp (by omega)
    rw [← sum_exponentsOf, absent, List.sum_nil]
  · omega

theorem cancelHead_decides (kept : ∀ number, ¬ allowed (.inexact number))
    (raises : kernel.Raises allowed)
    (upTerms : candidate.IsTerm ∧ ∀ factor ∈ rest, factor.IsTerm) (isTerm : term.IsTerm) :
    (do
      guard (sameKey .multiplicative candidate term)
      let merged ← mergePair kernel .div candidate term
      pure (merged :: rest) : Rule (List Expr)).Decides allowed (Reduces term (candidate :: rest))
        (∀ name, 0 < term.degree name → candidate.degree name < term.degree name) := by
  by_cases same : factorKey candidate = factorKey term
  · rw [sameKey_iff.mpr same]
    have passes : (guard (true = true) : Rule Unit).Succeeds allowed fun _ => True := .pure trivial
    refine passes.decides.bind fun _ _ => ?_
    refine (mergePair_decides kept raises upTerms.1 isTerm same).bind fun merged divides => .pure ?_
    refine ⟨List.forall_mem_cons.mpr ⟨divides.isTerm, upTerms.2⟩, fun name => ?_, fun name => ?_⟩
    · rw [degrees_cons, degrees_cons, divides.degree]
      ring
    · rw [length_exponentsOf_cons, length_exponentsOf_cons]
      exact Nat.add_le_add_right (divides.fewer name) _
  · have different :
        (guard (sameKey .multiplicative candidate term = true) : Rule Unit) = failure :=
      if_neg (sameKey_iff.not.mpr same)
    rw [different]
    refine .failure fun name positive => ?_
    rcases isTerm.degree_cases name with ⟨key, _, _⟩ | ⟨_, zero, _⟩
    · rcases upTerms.1.degree_cases name with ⟨candidateKey, _, _⟩ | ⟨_, zero, _⟩
      · exact absurd (candidateKey.trans key.symm) same
      · omega
    · omega

/-- An inverse factor stays below only where the exponents above are smaller. -/
theorem cancelOne_decides (kept : ∀ number, ¬ allowed (.inexact number))
    (raises : kernel.Raises allowed) (upTerms : ∀ factor ∈ up, factor.IsTerm)
    (isTerm : term.IsTerm) (single : Single up) :
    (cancelOne kernel .multiplicative term up).Decides allowed (Reduces term up)
      (∀ name, 0 < term.degree name → degrees name up < term.degree name) := by
  induction up with
  | nil => exact .failure fun name positive => positive
  | cons candidate rest ih =>
      rw [List.forall_mem_cons] at upTerms
      refine .orElse (cancelHead_decides kept raises upTerms isTerm) fun tooSmall => ?_
      refine .bind ((ih upTerms.2 single.tail).explain fun tooSmallBehind => ?_)
        fun remaining reduces => .pure ?_
      · intro name positive
        have above := tooSmall name positive
        have behind := tooSmallBehind name positive
        have nonneg := degree_nonneg upTerms.1 name
        rw [degrees_cons]
        rcases nonneg.lt_or_eq with present | absent
        · rwa [single.degrees_eq_zero upTerms.1 present, add_zero]
        · rwa [← absent, zero_add]
      · refine ⟨List.forall_mem_cons.mpr ⟨upTerms.1, reduces.isTerm⟩, fun name => ?_,
          fun name => ?_⟩
        · rw [degrees_cons, degrees_cons, reduces.degrees]
          ring
        · rw [length_exponentsOf_cons, length_exponentsOf_cons]
          exact Nat.add_le_add_left (reduces.fewer name) _

/-- Inverse factors have been cancelled: what is left below has greater exponents than
what is left above. -/
structure Cancels (up down : List Expr) (result : Terms) : Prop where
  upTerms : ∀ factor ∈ result.up, factor.IsTerm
  downTerms : ∀ factor ∈ result.down, factor.IsTerm
  balance : ∀ name, degrees name result.up - degrees name result.down =
    degrees name up - degrees name down
  fewer : ∀ name, degrees name result.down ≤ degrees name down
  smaller : ∀ name, degrees name result.down = 0 ∨
    degrees name result.up < degrees name result.down

theorem cancel_cancels (kept : ∀ number, ¬ allowed (.inexact number))
    (raises : kernel.Raises allowed) (upTerms : ∀ factor ∈ up, factor.IsTerm)
    (downTerms : ∀ factor ∈ down, factor.IsTerm) (single : Single up) (downSingle : Single down) :
    (cancel kernel .multiplicative up down).Ensures allowed (Cancels up down) := by
  induction down generalizing up with
  | nil => exact .pure ⟨upTerms, downTerms, fun _ => rfl, fun _ => le_rfl, fun _ => .inl rfl⟩
  | cons term rest ih =>
      rw [List.forall_mem_cons] at downTerms
      refine (cancelOne_decides kept raises upTerms downTerms.1 single).run_match ?_ ?_
      · intro remaining reduces
        have remainingSingle : Single remaining :=
          fun name => (reduces.fewer name).trans (single name)
        refine (ih reduces.isTerm downTerms.2 remainingSingle downSingle.tail).mono ?_
        intro result cancels
        refine ⟨cancels.upTerms, cancels.downTerms, fun name => ?_, fun name => ?_, cancels.smaller⟩
        · rw [cancels.balance, reduces.degrees, degrees_cons]
          ring
        · rw [degrees_cons]
          exact (cancels.fewer name).trans (le_add_of_nonneg_left (degree_nonneg downTerms.1 name))
      · intro tooSmall
        refine .bind (ih upTerms downTerms.2 single downSingle.tail) fun result cancels => .pure ?_
        refine ⟨cancels.upTerms, List.forall_mem_cons.mpr ⟨downTerms.1, cancels.downTerms⟩,
          ?_, ?_, ?_⟩
        · intro name
          have balance := cancels.balance name
          simp only [degrees_cons]
          omega
        · intro name
          rw [degrees_cons, degrees_cons]
          exact add_le_add_right (cancels.fewer name) _
        · intro name
          have nonneg := degree_nonneg downTerms.1 name
          have balance := cancels.balance name
          simp only [degrees_cons]
          rcases nonneg.lt_or_eq with present | absent
          · -- Nothing else below holds this variable, so nothing takes from it above.
            have alone := downSingle.degrees_eq_zero downTerms.1 present
            have fewer := cancels.fewer name
            have atLeast := degrees_nonneg cancels.downTerms name
            have above := tooSmall name present
            omega
          · rw [← absent, zero_add]
            exact cancels.smaller name

end Cancelling

/-! ## Settling -/

/-- The factors on each side of the fraction bar hold different variables, and what is
below has greater exponents than what is above. -/
structure Settles (terms : Terms) : Prop where
  upTerms : ∀ factor ∈ terms.up, factor.IsTerm
  downTerms : ∀ factor ∈ terms.down, factor.IsTerm
  upSingle : Single terms.up
  downSingle : Single terms.down
  smaller : ∀ name, degrees name terms.down = 0 ∨ degrees name terms.up < degrees name terms.down

section Settling

variable {kernel : Kernel} {allowed : Step → Prop} {term : Expr} {terms others up down : List Expr}
  {name : String}

theorem Expr.IsTerm.withoutSign (isTerm : term.IsTerm) : withoutSign term = failure := by
  cases isTerm with
  | number leaf positive =>
      obtain ⟨number, mark, represents, rfl⟩ := leaf
      have notNegative := mt represents.isNegative_iff.mp fun negative => positive.not_gt negative.2
      exact if_neg notNegative
  | power power _ => cases power <;> rfl

theorem Expr.IsTerm.flipped (isTerm : term.IsTerm) :
    flipped .multiplicative term = failure := by
  cases isTerm with
  | number leaf _ =>
      obtain ⟨number, mark, _, rfl⟩ := leaf
      rfl
  | @power _ exponent _ power positive =>
      cases power with
      | var => rfl
      | power =>
          have notNegative : ¬ (Number.int exponent).isNegative = true := by
            simpa [Number.isNegative] using positive.le
          exact if_neg notNegative

theorem Expr.IsTerm.isZero (isTerm : term.IsTerm) : term.isZero = false := by
  cases isTerm with
  | number leaf positive =>
      obtain ⟨number, mark, represents, rfl⟩ := leaf
      refine Bool.eq_false_iff.mpr (mt represents.isZero_iff.mp fun zero => ?_)
      exact positive.ne' (congrArg QuadraticAlgebra.re zero)
  | power power _ => cases power <;> rfl

/-- Only a number is left out as neutral. -/
theorem Expr.IsTerm.exponents_of_isNeutral (isTerm : term.IsTerm)
    (neutral : Chain.multiplicative.isNeutral term = true) : term.exponents name = [] := by
  cases isTerm with
  | number leaf _ => exact leaf.exponents
  | power power _ => cases power <;> cases neutral

theorem exponentsOf_perm (permuted : terms.Perm others) :
    (exponentsOf name terms).Perm (exponentsOf name others) :=
  permuted.flatMap_right _

theorem settle_settles (kept : ∀ number, ¬ allowed (.inexact number))
    (raises : kernel.Raises allowed) (upTerms : ∀ factor ∈ up, factor.IsTerm)
    (downTerms : ∀ factor ∈ down, factor.IsTerm) :
    (settle kernel .multiplicative ⟨up, down⟩).Ensures allowed Settles := by
  have tidies {up down : List Expr} (upTerms : ∀ factor ∈ up, factor.IsTerm)
      (downTerms : ∀ factor ∈ down, factor.IsTerm) :
      (tidyBoth kernel .multiplicative ⟨up, down⟩).Ensures allowed fun tidied =>
        Tidied up tidied.up ∧ Tidied down tidied.down :=
    .bind (tidy_tidies kept raises upTerms) fun _ tidied =>
      .bind (tidy_tidies kept raises downTerms) fun _ tidiedDown => .pure ⟨tidied, tidiedDown⟩
  refine .bind (tidies upTerms downTerms) ?_
  rintro first ⟨firstUp, firstDown⟩
  refine .bind (cancel_cancels kept raises firstUp.isTerm firstDown.isTerm firstUp.single
    firstDown.single) fun cancelled cancels => ?_
  refine .bind (tidies cancels.upTerms cancels.downTerms) ?_
  rintro second ⟨secondUp, secondDown⟩
  -- Neither a positive number nor a positive power reads better on the other side.
  have stays : (balance .multiplicative second).Ensures allowed (· = second) :=
    balance_stays (fun factor member => (secondUp.isTerm factor member).flipped)
      fun factor member => (secondDown.isTerm factor member).flipped
  refine .bind stays ?_
  rintro balanced rfl
  have upPerm := sortTerms_perm .multiplicative balanced.up
  have downPerm := sortTerms_perm .multiplicative balanced.down
  refine .pure ⟨?_, ?_, ?_, ?_, fun name => ?_⟩
  · exact fun factor member => secondUp.isTerm factor (upPerm.mem_iff.mp member)
  · exact fun factor member => secondDown.isTerm factor (downPerm.mem_iff.mp member)
  · exact fun name => (exponentsOf_perm upPerm).length_eq.trans_le (secondUp.single name)
  · exact fun name => (exponentsOf_perm downPerm).length_eq.trans_le (secondDown.single name)
  · simp only [degrees_perm upPerm, degrees_perm downPerm, secondUp.degrees, secondDown.degrees]
    exact cancels.smaller name

theorem Expr.IsTerm.isMonomial (isTerm : term.IsTerm) : term.IsMonomial := by
  cases isTerm with
  | number leaf positive => exact .factor (.number leaf positive)
  | power power positive => exact .factor (.power power positive.ne')

/-- A variable is absent, or stands in the tree once; or it stands on both sides of a
fraction bar, with the smaller exponent above. -/
inductive Collected : List ℤ → Prop where
  | absent : Collected []
  | once {exponent : ℤ} : exponent ≠ 0 → Collected [exponent]
  | both {above below : ℤ} : 0 < above → above < below → Collected [above, -below]

/-- A monomial in which the factors of each variable are collected. -/
structure Expr.IsCollected (tree : Expr) : Prop where
  isMonomial : tree.IsMonomial
  collected : ∀ name, Collected (tree.exponents name)

theorem exponentsOf_cases (isTerm : ∀ term ∈ terms, term.IsTerm) (single : Single terms)
    (name : String) :
    (exponentsOf name terms = [] ∧ degrees name terms = 0) ∨
      exponentsOf name terms = [degrees name terms] ∧ 0 < degrees name terms := by
  have atMost := single name
  have sum : (exponentsOf name terms).sum = degrees name terms := sum_exponentsOf
  cases exponents : exponentsOf name terms with
  | nil => exact .inl ⟨rfl, by rw [← sum, exponents, List.sum_nil]⟩
  | cons exponent rest =>
      obtain rfl : rest = [] := by
        rw [exponents, List.length_cons] at atMost
        exact List.length_eq_zero_iff.mp (by omega)
      rw [exponents, List.sum_singleton] at sum
      have member : exponent ∈ exponentsOf name terms := by simp [exponents]
      obtain ⟨term, termMember, member⟩ := List.mem_flatMap.mp member
      rcases (isTerm term termMember).degree_cases name with ⟨_, positive, same⟩ | ⟨_, _, none⟩
      · rw [same, List.mem_singleton] at member
        rw [← sum]
        exact .inr ⟨rfl, by omega⟩
      · rw [none] at member
        cases member

/-- A quotient of settled factors is collected. -/
theorem Settles.isCollected {sides : Terms} {above below : List ℤ} (settles : Settles sides)
    (name : String) (abovePerm : above.Perm (exponentsOf name sides.up))
    (belowPerm : below.Perm (exponentsOf name sides.down)) :
    Collected (above ++ below.map (- ·)) := by
  rcases exponentsOf_cases settles.upTerms settles.upSingle name with
    ⟨up, upZero⟩ | ⟨up, upPositive⟩
  all_goals
    rcases exponentsOf_cases settles.downTerms settles.downSingle name with
      ⟨down, downZero⟩ | ⟨down, downPositive⟩
    all_goals
      rw [up] at abovePerm
      rw [down] at belowPerm
  · rw [abovePerm.eq_nil, belowPerm.eq_nil]
    exact .absent
  · rw [abovePerm.eq_nil, List.perm_singleton.mp belowPerm]
    exact .once (neg_ne_zero.mpr downPositive.ne')
  · rw [List.perm_singleton.mp abovePerm, belowPerm.eq_nil]
    exact .once upPositive.ne'
  · rw [List.perm_singleton.mp abovePerm, List.perm_singleton.mp belowPerm]
    exact .both upPositive ((settles.smaller name).resolve_left downPositive.ne')

theorem exponentsOf_filter (isTerm : ∀ term ∈ terms, term.IsTerm) (name : String) :
    exponentsOf name (terms.filter (!Chain.multiplicative.isNeutral ·)) =
      exponentsOf name terms := by
  induction terms with
  | nil => rfl
  | cons term terms ih =>
      rw [List.forall_mem_cons] at isTerm
      have rest := ih isTerm.2
      simp only [exponentsOf] at rest ⊢
      by_cases neutral : Chain.multiplicative.isNeutral term = true
      · rw [List.filter_cons_of_neg (by simp [neutral]), List.flatMap_cons,
          isTerm.1.exponents_of_isNeutral neutral, rest, List.nil_append]
      · rw [List.filter_cons_of_pos (by simp [neutral]), List.flatMap_cons, List.flatMap_cons, rest]

theorem Settles.filter {sides : Terms} (settles : Settles sides) :
    Settles ⟨sides.up.filter (!Chain.multiplicative.isNeutral ·),
      sides.down.filter (!Chain.multiplicative.isNeutral ·)⟩ := by
  have up := exponentsOf_filter settles.upTerms
  have down := exponentsOf_filter settles.downTerms
  refine ⟨?_, ?_, fun name => ?_, fun name => ?_, fun name => ?_⟩
  · exact fun factor member => settles.upTerms factor (List.mem_of_mem_filter member)
  · exact fun factor member => settles.downTerms factor (List.mem_of_mem_filter member)
  · rw [up]
    exact settles.upSingle name
  · rw [down]
    exact settles.downSingle name
  · rw [← sum_exponentsOf, ← sum_exponentsOf, up, down, sum_exponentsOf, sum_exponentsOf]
    exact settles.smaller name

end Settling

end SymbolicAlgebra
