import SymbolicAlgebra.Proofs.Termination.Collection

/-!
# The calls of collecting sums

The invariant of the two lists bounds the weight of the sum that they would be
folded into, so a sum that has been collected is no heavier than it was.
-/

namespace SymbolicAlgebra

variable {kernel other : Kernel} {bound : ℚ} {term : Expr} {up down ups downs : List Expr}

/-- The weight of addends and subtrahends, with the margin of a sum for each
addend. -/
def spread (up down : List Expr) : ℚ :=
  (up.map fun term => term.weight + 1).sum + (down.map fun term => 3 / 2 * term.weight).sum

@[simp] theorem spread_nil : spread [] [] = 0 := by
  simp [spread]

@[simp] theorem spread_cons : spread (term :: up) down = term.weight + 1 + spread up down := by
  simp [spread, add_assoc]

@[simp] theorem spread_consDown :
    spread up (term :: down) = 3 / 2 * term.weight + spread up down := by
  simp only [spread, List.map_cons, List.sum_cons]
  linarith

@[simp] theorem spread_append :
    spread (up ++ ups) (down ++ downs) = spread up down + spread ups downs := by
  simp only [spread, List.map_append, List.sum_append]
  linarith

theorem spread_nonneg (up down : List Expr) : 0 ≤ spread up down := by
  apply add_nonneg <;> apply List.sum_nonneg <;> intro weight member <;>
    obtain ⟨term, _, rfl⟩ := List.mem_map.mp member <;> linarith [term.weight_pos]

theorem spread_perm (upOrder : up.Perm ups) (downOrder : down.Perm downs) :
    spread up down = spread ups downs := by
  rw [spread, spread, (upOrder.map _).sum_eq, (downOrder.map _).sum_eq]

/-- The sum of the terms weighs no more than the bound.  It starts with an addend,
which needs no margin, or else with a negated subtrahend. -/
structure SumFits (bound : ℚ) (up down : List Expr) : Prop where
  total : spread up down ≤ bound + 1
  bare : up = [] → spread up down ≤ bound

theorem SumFits.of_le (light : spread up down ≤ bound) : SumFits bound up down :=
  ⟨by linarith, fun _ => light⟩

theorem SumFits.cons (light : term.weight + spread up down ≤ bound) :
    SumFits bound (term :: up) down :=
  ⟨by rw [spread_cons]; linarith, nofun⟩

theorem SumFits.spread_down (fits : SumFits bound up down) : spread [] down ≤ bound := by
  cases up with
  | nil => exact fits.bare rfl
  | cons term up =>
      have total := fits.total
      have apart : spread ([] ++ up) (down ++ []) = spread [] down + spread up [] := spread_append
      rw [spread_cons] at total
      rw [List.nil_append, List.append_nil] at apart
      linarith [spread_nonneg up [], term.weight_pos]

theorem sumFits_invariant (agree : kernel.AgreeBelow other bound 4) :
    TermsInvariant kernel other .additive (SumFits bound) where
  perm fits upOrder downOrder := by
    refine ⟨spread_perm upOrder downOrder ▸ fits.total, fun empty => ?_⟩
    subst empty
    exact spread_perm upOrder downOrder ▸ fits.bare upOrder.eq_nil
  join {first second up down} fits _ := by
    have total := fits.total
    rw [spread_cons, spread_cons] at total
    have rest := spread_nonneg up down
    have below : (Expr.arith .add first second).weight ≤ bound := by
      rw [Expr.weight_add]
      linarith
    refine (combine_alike (agree.restrict below (le_refl 4))).mono fun merged light => .cons ?_
    simp only [ArithOp.merged, ArithOp.rightWeight] at light
    linarith
  joinDown {first second up down} fits _ := by
    have light := fits.spread_down
    have rest := spread_nonneg [] down
    rw [spread_consDown, spread_consDown] at light
    have firstBound := first.le_weight
    have secondBound := second.le_weight
    have below : (Expr.arith .add first second).weight ≤ bound := by
      rw [Expr.weight_add]
      linarith
    refine (combine_alike (agree.restrict below (le_refl 4))).mono fun merged light => ?_
    simp only [ArithOp.merged, ArithOp.rightWeight] at light
    refine ⟨?_, fun empty => ?_⟩
    · have total := fits.total
      rw [spread_consDown, spread_consDown] at total
      rw [spread_consDown]
      linarith
    · have bare := fits.bare empty
      rw [spread_consDown, spread_consDown] at bare
      rw [spread_consDown]
      linarith
  cancel {first second up down} fits _ := by
    have total := fits.total
    rw [spread_cons, spread_consDown] at total
    have rest := spread_nonneg up down
    have below : (Expr.arith .sub first second).weight ≤ bound := by
      rw [Expr.weight_sub]
      linarith
    refine (combine_alike (agree.restrict below (le_refl 4))).mono fun merged light => .cons ?_
    simp only [ArithOp.merged, ArithOp.rightWeight] at light
    linarith
  flip {term up down} fits := by
    refine Traced.Ensures.mono (flipped_light .additive term) fun _ light inverse found =>
      .of_le ?_
    have total := fits.total
    rw [spread_cons] at total
    rw [spread_consDown]
    linarith [(light inverse found).1]
  flipDown {term up down} fits := by
    refine Traced.Ensures.mono (flipped_light .additive term) fun _ light inverse found => .cons ?_
    have total := fits.total
    rw [spread_consDown] at total
    linarith [(light inverse found).1, inverse.le_weight]
  drop {term up down} fits _ := by
    have total := fits.total
    rw [spread_cons] at total
    exact .of_le (by linarith [term.weight_pos])
  dropDown {term up down} fits _ := by
    have positive := term.weight_pos
    refine ⟨?_, fun empty => ?_⟩
    · have total := fits.total
      rw [spread_consDown] at total
      linarith
    · have bare := fits.bare empty
      rw [spread_consDown] at bare
      linarith

/-- The terms of a tree as a part of a sum, and as a part that is subtracted, where
several terms leave a margin. -/
structure IsSumOf (weight : ℚ) (added : Terms) : Prop where
  fits : SumFits weight added.up added.down
  turned : spread added.down added.up ≤ 3 / 2 * weight
  margin : added.up.length + added.down.length = 1 ∨
    spread added.down added.up + 1 / 4 ≤ 3 / 2 * weight

namespace IsSumOf

variable {weight : ℚ} {left right operand : Expr} {added others : Terms}

theorem of_margin (fits : SumFits weight added.up added.down)
    (margin : spread added.down added.up + 1 / 4 ≤ 3 / 2 * weight) : IsSumOf weight added :=
  ⟨fits, by linarith, .inr margin⟩

theorem single (term : Expr) : IsSumOf term.weight ⟨[term], []⟩ :=
  ⟨.cons (by simp), by simp, .inl rfl⟩

theorem add (isLeft : IsSumOf left.weight added) (isRight : IsSumOf right.weight others)
    (mark : Mark) :
    IsSumOf (Expr.arith .add left right mark).weight
      ⟨added.up ++ others.up, added.down ++ others.down⟩ := by
  have leftTotal := isLeft.fits.total
  have rightTotal := isRight.fits.total
  rw [Expr.weight_add]
  refine .of_margin ⟨?_, fun empty => ?_⟩ ?_
  · rw [spread_append]
    linarith
  · have ⟨leftEmpty, rightEmpty⟩ := List.append_eq_nil_iff.mp empty
    rw [spread_append]
    linarith [isLeft.fits.bare leftEmpty, isRight.fits.bare rightEmpty]
  · rw [spread_append]
    linarith [isLeft.turned, isRight.turned]

theorem sub (isLeft : IsSumOf left.weight added) (isRight : IsSumOf right.weight others)
    (mark : Mark) :
    IsSumOf (Expr.arith .sub left right mark).weight
      ⟨added.up ++ others.down, added.down ++ others.up⟩ := by
  have leftTotal := isLeft.fits.total
  have rightTotal := isRight.fits.total
  have rightTurned := isRight.turned
  rw [Expr.weight_sub]
  refine .of_margin ⟨?_, fun empty => ?_⟩ ?_
  · rw [spread_append]
    linarith
  · have leftEmpty := (List.append_eq_nil_iff.mp empty).1
    rw [spread_append]
    linarith [isLeft.fits.bare leftEmpty]
  · rw [spread_append]
    linarith [isLeft.turned, right.le_weight]

theorem neg (isOperand : IsSumOf operand.weight added) (mark : Mark) :
    IsSumOf (Expr.unary .neg operand mark).weight added.swap := by
  rw [Expr.weight_neg]
  refine .of_margin (.of_le isOperand.turned) ?_
  change spread added.up added.down + 1 / 4 ≤ _
  linarith [isOperand.fits.total, operand.le_weight]

end IsSumOf

theorem fillsSum_weight : FillsSum fun tree => IsSumOf tree.weight where
  single _ := .single _
  add mark isLeft isRight := isLeft.add isRight mark
  sub mark isLeft isRight := isLeft.sub isRight mark
  neg mark isOperand := isOperand.neg mark

theorem fillAdditive_appends (tree : Expr) (terms : Terms) :
    (fillAdditive tree terms).Ensures (fun _ => True) (Appends terms (IsSumOf tree.weight)) :=
  fillsSum_weight.appends tree terms

theorem foldBack_add_weight (start : Expr) (list : List Expr) :
    (foldBack .add start list).Ensures (·.weight = start.weight + spread list []) := by
  refine foldBack_ensures (fun list tree => tree.weight = start.weight + spread list []) (by simp)
    fun holds mark => ?_
  rw [Expr.weight_add, holds, spread_cons]
  linarith

theorem foldBack_sub_weight (start : Expr) (list : List Expr) :
    (foldBack .sub start list).Ensures (·.weight = start.weight + spread [] list) := by
  refine foldBack_ensures (fun list tree => tree.weight = start.weight + spread [] list) (by simp)
    fun holds mark => ?_
  rw [Expr.weight_sub, holds, spread_consDown]
  linarith

theorem foldAdditive_light {terms : Terms} (fits : SumFits bound terms.up terms.down)
    (least : 3 / 2 ≤ bound) : (foldAdditive terms).Ensures (·.weight ≤ bound) := by
  have sums (last : Expr) (order : terms.up.Perm (last :: terms.up.dropLast)) :
      (foldBack .add last terms.up.dropLast).Ensures (·.weight + 1 = spread terms.up []) := by
    refine (foldBack_add_weight last _).mono fun sum sumWeight => ?_
    rw [sumWeight, spread_perm order (.refl []), spread_cons]
    linarith
  refine .bind (foldReversed?_ensures sums) ?_
  rintro (_ | sum) ⟨found, missing⟩
  · cases found : terms.down.getLast? with
    | some last =>
        have negated : (Expr.make (.unary .neg last)).Ensures (·.weight = 3 / 2 * last.weight) :=
          .make fun mark => Expr.weight_neg last
        refine .bind negated fun first firstWeight =>
          (foldBack_sub_weight first _).mono fun tree treeWeight => ?_
        have bare := fits.spread_down
        rw [spread_perm (.refl []) (perm_getLast_cons found), spread_consDown] at bare
        rwa [treeWeight, firstWeight]
    | none => exact .pure least
  · refine (foldBack_sub_weight sum _).mono fun tree treeWeight => ?_
    have apart : spread (terms.up ++ []) ([] ++ terms.down) =
        spread terms.up [] + spread [] terms.down := spread_append
    rw [List.append_nil, List.nil_append] at apart
    rw [treeWeight]
    linarith [fits.total, found sum rfl]

theorem collect_additive_alike (agree : kernel.AgreeBelow other bound 4) {terms : Terms}
    (fits : SumFits bound terms.up terms.down) (least : 3 / 2 ≤ bound) :
    (collect kernel .additive terms).Alike (collect other .additive terms) (·.weight ≤ bound) := by
  have invariant := sumFits_invariant agree
  refine .bind .step fun _ _ => .bind (.pure rfl) fun pulled unsigned => ?_
  subst unsigned
  refine .bind (invariant.settle_alike fits) fun settled settledFits => ?_
  exact .refl (.ofMarking (foldAdditive_light (invariant.filter_isNeutral settledFits) least))

end SymbolicAlgebra
