import SymbolicAlgebra.Proofs.Soundness.Collection
import SymbolicAlgebra.Proofs.Termination.Identities

/-!
# The calls of collecting terms

Collecting merges, cancels, moves and drops terms one by one.  What one such step
does to the two lists is all that the two chains have to be asked about; that a
whole pass keeps an invariant of the lists follows for both chains at once.
-/

namespace SymbolicAlgebra

variable {kernel other : Kernel} {chain : Chain}

/-! ## Passes over the lists -/

/-- A property of the two lists of a chain that each step of collecting keeps. -/
structure TermsInvariant (kernel other : Kernel) (chain : Chain)
    (Holds : List Expr → List Expr → Prop) : Prop where
  perm : ∀ {up down ups downs : List Expr}, Holds up down → up.Perm ups → down.Perm downs →
    Holds ups downs
  join : ∀ {first second : Expr} {up down : List Expr}, Holds (first :: second :: up) down →
    sameKey chain first second = true →
      (combine kernel chain.op first second).Alike (combine other chain.op first second)
        fun merged => Holds (merged :: up) down
  joinDown : ∀ {first second : Expr} {up down : List Expr}, Holds up (first :: second :: down) →
    sameKey chain first second = true →
      (combine kernel chain.op first second).Alike (combine other chain.op first second)
        fun merged => Holds up (merged :: down)
  cancel : ∀ {first second : Expr} {up down : List Expr}, Holds (first :: up) (second :: down) →
    sameKey chain first second = true →
      (combine kernel chain.inverse first second).Alike (combine other chain.inverse first second)
        fun merged => Holds (merged :: up) down
  flip : ∀ {term : Expr} {up down : List Expr}, Holds (term :: up) down →
    (flipped chain term).Ensures (fun _ => True) fun inverse => Holds up (inverse :: down)
  flipDown : ∀ {term : Expr} {up down : List Expr}, Holds up (term :: down) →
    (flipped chain term).Ensures (fun _ => True) fun inverse => Holds (inverse :: up) down
  drop : ∀ {term : Expr} {up down : List Expr}, Holds (term :: up) down →
    chain.isNeutral term = true → Holds up down
  dropDown : ∀ {term : Expr} {up down : List Expr}, Holds up (term :: down) →
    chain.isNeutral term = true → Holds up down

/-- A property of one list that merging two of its terms and dropping a neutral one
keep. -/
structure Merging (kernel other : Kernel) (chain : Chain) (Side : List Expr → Prop) : Prop where
  perm : ∀ {terms others : List Expr}, Side terms → terms.Perm others → Side others
  join : ∀ {first second : Expr} {rest : List Expr}, Side (first :: second :: rest) →
    sameKey chain first second = true →
      (combine kernel chain.op first second).Alike (combine other chain.op first second)
        fun merged => Side (merged :: rest)
  drop : ∀ {term : Expr} {rest : List Expr}, Side (term :: rest) → chain.isNeutral term = true →
    Side rest

theorem mergePair_alike {op : ArithOp} {left right : Expr} {condition : Expr → Prop}
    (alike : (combine kernel op left right).Alike (combine other op left right) condition) :
    (mergePair kernel op left right).Alike (mergePair other op left right) condition :=
  .bind alike fun _ holds => .bind (.refl .guarded) fun _ _ => .pure holds

namespace Merging

variable {Side : List Expr → Prop}

theorem absorb_alike (merging : Merging kernel other chain Side) {term : Expr}
    {before rest : List Expr} (holds : Side (term :: (before ++ rest))) :
    (absorb kernel chain term before).Alike (absorb other chain term before)
      fun absorbed => Side (absorbed ++ rest) := by
  induction before generalizing rest with
  | nil => exact .failure
  | cons nearest before ih =>
      unfold absorb
      split
      · rename_i same
        refine .orElse ?_ ?_
        · have adjacent : Side (nearest :: term :: (before ++ rest)) :=
            merging.perm holds (.swap _ _ _)
          exact .bind (mergePair_alike (merging.join adjacent same)) fun _ merged => .pure merged
        · have passed : Side (term :: (before ++ nearest :: rest)) :=
            merging.perm holds (.cons _ List.perm_middle.symm)
          refine .bind (ih passed) fun absorbed kept => .pure ?_
          exact merging.perm kept List.perm_middle
      · exact .failure

theorem mergeRuns_alike (merging : Merging kernel other chain Side) {done rest : List Expr}
    (holds : Side (done ++ rest)) :
    (mergeRuns kernel chain done rest).Alike (mergeRuns other chain done rest) Side := by
  induction rest generalizing done with
  | nil =>
      rw [List.append_nil] at holds
      exact .pure (merging.perm holds (List.reverse_perm done).symm)
  | cons term rest ih =>
      have front := merging.perm holds List.perm_middle
      exact Rule.Alike.run_match (merging.absorb_alike front) (fun _ kept => ih kept) (ih front)

theorem tidy_alike (merging : Merging kernel other chain Side) {terms : List Expr}
    (holds : Side terms) : (tidy kernel chain terms).Alike (tidy other chain terms) Side :=
  merging.mergeRuns_alike (merging.perm holds (sortTerms_perm chain terms).symm)

theorem filter_append_keeps (merging : Merging kernel other chain Side) {terms rest : List Expr}
    (holds : Side (terms ++ rest)) : Side (terms.filter (!chain.isNeutral ·) ++ rest) := by
  induction terms generalizing rest with
  | nil => exact holds
  | cons term terms ih =>
      rw [List.filter_cons]
      split
      · have passed := ih (merging.perm holds List.perm_middle.symm)
        exact merging.perm passed List.perm_middle
      · rename_i neutral
        exact ih (merging.drop holds (by simpa using neutral))

theorem filter_keeps (merging : Merging kernel other chain Side) {terms : List Expr}
    (holds : Side terms) : Side (terms.filter (!chain.isNeutral ·)) := by
  rw [← List.append_nil terms] at holds
  simpa using merging.filter_append_keeps holds

end Merging

namespace TermsInvariant

variable {Holds : List Expr → List Expr → Prop} {up down : List Expr}

theorem merging (invariant : TermsInvariant kernel other chain Holds) (down : List Expr) :
    Merging kernel other chain (Holds · down) where
  perm holds order := invariant.perm holds order (.refl _)
  join holds same := invariant.join holds same
  drop holds neutral := invariant.drop holds neutral

theorem mergingDown (invariant : TermsInvariant kernel other chain Holds) (up : List Expr) :
    Merging kernel other chain (Holds up) where
  perm holds order := invariant.perm holds (.refl _) order
  join holds same := invariant.joinDown holds same
  drop holds neutral := invariant.dropDown holds neutral

theorem tidyBoth_alike (invariant : TermsInvariant kernel other chain Holds) {terms : Terms}
    (holds : Holds terms.up terms.down) :
    (tidyBoth kernel chain terms).Alike (tidyBoth other chain terms)
      fun tidied => Holds tidied.up tidied.down :=
  .bind ((invariant.merging terms.down).tidy_alike holds) fun up kept =>
    .bind ((invariant.mergingDown up).tidy_alike kept) fun _ both => .pure both

theorem cancelOne_alike (invariant : TermsInvariant kernel other chain Holds) {term : Expr}
    {passed : List Expr} (holds : Holds (up ++ passed) (term :: down)) :
    (cancelOne kernel chain term up).Alike (cancelOne other chain term up)
      fun remaining => Holds (remaining ++ passed) down := by
  induction up generalizing passed with
  | nil => exact .failure
  | cons candidate up ih =>
      unfold cancelOne
      refine .orElse ?_ ?_
      · refine .bind (.refl .guarded) fun _ same => ?_
        exact .bind (mergePair_alike (invariant.cancel holds same)) fun _ merged => .pure merged
      · have further : Holds (up ++ candidate :: passed) (term :: down) :=
          invariant.perm holds List.perm_middle.symm (.refl _)
        refine .bind (ih further) fun remaining kept => .pure ?_
        exact invariant.perm kept List.perm_middle (.refl _)

theorem cancel_alike (invariant : TermsInvariant kernel other chain Holds) {passed : List Expr}
    (holds : Holds up (down ++ passed)) :
    (SymbolicAlgebra.cancel kernel chain up down).Alike (SymbolicAlgebra.cancel other chain up down)
      fun cancelled => Holds cancelled.up (cancelled.down ++ passed) := by
  induction down generalizing up passed with
  | nil => exact .pure holds
  | cons term down ih =>
      have split : Holds (up ++ []) (term :: (down ++ passed)) := by rwa [List.append_nil]
      refine Rule.Alike.run_match (invariant.cancelOne_alike split) ?_ ?_
      · intro remaining kept
        rw [List.append_nil] at kept
        exact ih kept
      · have further : Holds up (down ++ term :: passed) :=
          invariant.perm holds (.refl _) List.perm_middle.symm
        refine .bind (ih further) fun cancelled kept => .pure ?_
        exact invariant.perm kept (.refl _) List.perm_middle

theorem splitFlipped_keeps (invariant : TermsInvariant kernel other chain Holds) {terms : List Expr}
    (holds : Holds (terms ++ up) down) :
    (splitFlipped chain terms).Ensures (fun _ => True)
      fun split => Holds (split.1 ++ up) (split.2 ++ down) := by
  induction terms generalizing up down with
  | nil => exact .pure holds
  | cons term terms ih =>
      refine Rule.Ensures.run_match (invariant.flip holds) ?_ ?_
      · intro inverse flipped
        refine .bind (ih flipped) fun split kept => .pure ?_
        exact invariant.perm kept (.refl _) List.perm_middle
      · have passed : Holds (terms ++ term :: up) down :=
          invariant.perm holds List.perm_middle.symm (.refl _)
        refine .bind (ih passed) fun split kept => .pure ?_
        exact invariant.perm kept List.perm_middle (.refl _)

theorem splitFlipped_keepsDown (invariant : TermsInvariant kernel other chain Holds)
    {terms : List Expr} (holds : Holds up (terms ++ down)) :
    (splitFlipped chain terms).Ensures (fun _ => True)
      fun split => Holds (split.2 ++ up) (split.1 ++ down) := by
  induction terms generalizing up down with
  | nil => exact .pure holds
  | cons term terms ih =>
      refine Rule.Ensures.run_match (invariant.flipDown holds) ?_ ?_
      · intro inverse flipped
        refine .bind (ih flipped) fun split kept => .pure ?_
        exact invariant.perm kept List.perm_middle (.refl _)
      · have passed : Holds up (terms ++ term :: down) :=
          invariant.perm holds (.refl _) List.perm_middle.symm
        refine .bind (ih passed) fun split kept => .pure ?_
        exact invariant.perm kept (.refl _) List.perm_middle

theorem balance_keeps (invariant : TermsInvariant kernel other chain Holds) {terms : Terms}
    (holds : Holds terms.up terms.down) :
    (balance chain terms).Ensures (fun _ => True)
      fun balanced => Holds balanced.up balanced.down := by
  have start : Holds (terms.up ++ []) terms.down := by rwa [List.append_nil]
  refine .bind (invariant.splitFlipped_keeps start) fun ups upKept => ?_
  have next : Holds ups.1 (terms.down ++ ups.2) := by
    rw [List.append_nil] at upKept
    exact invariant.perm upKept (.refl _) List.perm_append_comm
  refine .bind (invariant.splitFlipped_keepsDown next) fun downs downKept => .pure ?_
  exact invariant.perm downKept List.perm_append_comm (.refl _)

theorem settle_alike (invariant : TermsInvariant kernel other chain Holds) {terms : Terms}
    (holds : Holds terms.up terms.down) :
    (settle kernel chain terms).Alike (settle other chain terms)
      fun settled => Holds settled.up settled.down := by
  refine .bind (invariant.tidyBoth_alike holds) fun tidied tidiedHolds => ?_
  have split : Holds tidied.up (tidied.down ++ []) := by rwa [List.append_nil]
  refine .bind (invariant.cancel_alike split) fun cancelled cancelledHolds => ?_
  rw [List.append_nil] at cancelledHolds
  refine .bind (invariant.tidyBoth_alike cancelledHolds) fun merged mergedHolds =>
    .bind (.refl (invariant.balance_keeps mergedHolds)) fun balanced balancedHolds => .pure ?_
  exact invariant.perm balancedHolds (sortTerms_perm chain _).symm (sortTerms_perm chain _).symm

theorem filter_isNeutral (invariant : TermsInvariant kernel other chain Holds)
    (holds : Holds up down) :
    Holds (up.filter (!chain.isNeutral ·)) (down.filter (!chain.isNeutral ·)) :=
  (invariant.mergingDown _).filter_keeps ((invariant.merging down).filter_keeps holds)

end TermsInvariant

theorem reciprocalPower_light {base : Expr} {exponent : Number}
    (negative : exponent.isNegative = true) :
    (reciprocalPower base exponent).Ensures (fun _ => True)
      (·.weight ≤ 2 / 3 * (base.weight * exponent.weight)) := by
  have positive := base.weight_pos
  rw [Number.weight_of_isNegative negative]
  unfold reciprocalPower
  split
  · exact .pure (by linarith)
  · refine .bind negateNumber_isResult fun negated isResult => .ofMarking (.make fun mark => ?_)
    have light := isResult.weight_le_weight
    rw [Number.weight_neg_of_isNegative negative, ← isResult.exponentWeight_eq] at light
    rw [Expr.weight_withMark, Expr.weight_pow]
    nlinarith

/-- A term that moves to the other list leaves the weight of its sign behind. -/
theorem flipped_light (chain : Chain) (term : Expr) :
    (flipped chain term).Ensures (fun _ => True) fun inverse =>
      inverse.weight ≤ 2 / 3 * term.weight ∧
        (chain = .multiplicative → term.toNumber? = none) := by
  unfold flipped
  split
  · split
    · exact .lift ((negateNumber_light ‹_›).mono fun _ light => ⟨light, nofun⟩)
    · exact .failure
  · exact .pure ⟨by rw [Expr.weight_neg]; linarith, nofun⟩
  · split
    · exact .lift ((reciprocalPower_light ‹_›).mono fun _ light => ⟨light, fun _ => rfl⟩)
    · exact .failure
  · exact .failure

theorem foldBack_ensures {op : ArithOp} {start : Expr} {list : List Expr}
    (condition : List Expr → Expr → Prop) (base : condition [] start)
    (step : ∀ {term : Expr} {terms : List Expr} {folded : Expr}, condition terms folded →
      ∀ mark, condition (term :: terms) (.arith op folded term mark)) :
    (foldBack op start list).Ensures (condition list) := by
  induction list with
  | nil => exact .pure base
  | cons term list ih => exact .bind ih fun folded holds => .make fun mark => step holds mark

theorem perm_getLast_cons {list : List Expr} {last : Expr} (found : list.getLast? = some last) :
    list.Perm (last :: list.dropLast) := by
  nth_rewrite 1 [← List.dropLast_append_getLast? last found]
  exact List.perm_append_singleton last list.dropLast

theorem foldReversed?_ensures {op : ArithOp} {list : List Expr} {condition : Expr → Prop}
    (folds : ∀ last, list.Perm (last :: list.dropLast) →
      (foldBack op last list.dropLast).Ensures condition) :
    (foldReversed? op list).Ensures fun result =>
      (∀ tree, result = some tree → condition tree) ∧ (result = none → list = []) := by
  unfold foldReversed?
  cases found : list.getLast? with
  | none => exact .pure ⟨nofun, fun _ => List.getLast?_eq_none_iff.mp found⟩
  | some last =>
      refine .bind (folds last (perm_getLast_cons found)) fun tree holds => .pure ⟨?_, nofun⟩
      rintro _ ⟨⟩
      exact holds

end SymbolicAlgebra
