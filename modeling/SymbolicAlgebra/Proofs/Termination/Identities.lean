import SymbolicAlgebra.Proofs.Reading
import SymbolicAlgebra.Proofs.Termination.Alike

/-!
# The calls of the identities

Every rule of arithmetic calls only on operations below the one that it is applied
to, and its result is no heavier than the operands together.  There is one
statement for each rule, as for the values of their results.
-/

namespace SymbolicAlgebra

variable {kernel other : Kernel} {bound : ℚ} {rank : Nat}

/-- The weight of two operands that an operator has merged: that of the plain node
without the margin of a sum. -/
def ArithOp.merged : ArithOp → ℚ → ℚ → ℚ
  | .add, left, right => left + right
  | .sub, left, right => left + 3 / 2 * right
  | _, left, right => left * right

/-- The weight of a right operand. -/
def ArithOp.rightWeight : ArithOp → Expr → ℚ
  | .pow, right => right.exponentWeight
  | _, right => right.weight

section Merged

variable {left right : Expr} {mark : Mark}

theorem ArithOp.weight_le_rightWeight (op : ArithOp) (right : Expr) :
    right.weight ≤ op.rightWeight right := by
  cases op with
  | pow => exact right.weight_le_exponentWeight
  | _ => exact le_refl _

theorem ArithOp.le_rightWeight (op : ArithOp) (right : Expr) : 3 / 2 ≤ op.rightWeight right :=
  right.le_weight.trans (op.weight_le_rightWeight right)

theorem ArithOp.rightWeight_of_ne {op : ArithOp} (notPower : op ≠ .pow) :
    op.rightWeight right = right.weight := by
  cases op with
  | pow => exact absurd rfl notPower
  | _ => rfl

theorem ArithOp.merged_le_weight (op : ArithOp) :
    op.merged left.weight (op.rightWeight right) ≤ (Expr.arith op left right mark).weight := by
  cases op <;> simp [merged, rightWeight]

theorem ArithOp.left_le_merged (op : ArithOp) :
    left.weight ≤ op.merged left.weight (op.rightWeight right) := by
  have leftBound := left.le_weight
  have rightBound := op.le_rightWeight right
  cases op <;> simp only [merged] <;> nlinarith

theorem ArithOp.right_le_merged (op : ArithOp) :
    right.weight ≤ op.merged left.weight (op.rightWeight right) := by
  have leftBound := left.le_weight
  have rightBound := op.le_rightWeight right
  have within := op.weight_le_rightWeight right
  cases op <;> simp only [merged] <;> nlinarith

theorem ArithOp.le_merged (op : ArithOp) :
    9 / 4 ≤ op.merged left.weight (op.rightWeight right) := by
  have leftBound := left.le_weight
  have rightBound := op.le_rightWeight right
  cases op <;> simp only [merged] <;> nlinarith

end Merged

/-! ## Structural rules -/

section Structural

variable {op : ArithOp} {left right : Expr}

theorem firstError?_light :
    (Rule.ofOption (firstError? left right)).Ensures (fun _ => True)
      (·.weight ≤ op.merged left.weight (op.rightWeight right)) := by
  refine .ofOption fun result found => ?_
  obtain ⟨-, rfl | rfl⟩ := firstError?_eq_some found
  · exact ArithOp.left_le_merged _
  · exact ArithOp.right_le_merged _

theorem numeric_isResult {operands : List Number} {result : Number} :
    (Traced.numeric operands result).Ensures (fun _ => True) (IsResult result) :=
  .numeric fun _ mark => ⟨result, mark, rfl, .inl rfl⟩

theorem numericRule_isResult {x y : Number} (leftView : left.toNumber? = some x)
    (rightView : right.toNumber? = some y) :
    (numericRule op left right).Succeeds (fun _ => True) (IsResult (op.onNumbers x y)) := by
  unfold numericRule
  rw [leftView, rightView]
  dsimp only
  split
  · exact .bind (.lift .step) fun _ _ => .lift (.make fun mark => ⟨_, mark, rfl, .inl rfl⟩)
  · exact .lift numeric_isResult

theorem numericRule_light :
    (numericRule op left right).Ensures (fun _ => True)
      (·.weight ≤ op.merged left.weight (op.rightWeight right)) := by
  cases leftView : left.toNumber? with
  | none =>
      unfold numericRule
      rw [leftView]
      exact .failure
  | some x =>
      cases rightView : right.toNumber? with
      | none =>
          unfold numericRule
          rw [leftView, rightView]
          exact .failure
      | some y =>
          refine Traced.Ensures.mono (numericRule_isResult leftView rightView) ?_
          rintro _ ⟨result, rfl, isResult⟩ _ ⟨⟩
          exact isResult.weight_le.trans op.le_merged

/-- What is handed on as an error by two numbers is undefined. -/
theorem isResult_of_firstError? {x y number : Number} {error : Expr}
    (leftView : left.toNumber? = some x) (rightView : right.toNumber? = some y)
    (found : firstError? left right = some error) : IsResult number error := by
  have undefined {tree : Expr} {value : Number} (view : tree.toNumber? = some value)
      (isError : tree.isError = true) : IsResult number tree := by
    cases tree with
    | number own mark => exact ⟨own, mark, rfl, .inr isError⟩
    | bool => cases isError
    | _ => cases view
  unfold firstError? at found
  split at found
  · obtain rfl := Option.some.inj found
    exact undefined leftView ‹_›
  · split at found
    · obtain rfl := Option.some.inj found
      exact undefined rightView ‹_›
    · contradiction

/-- Two numbers are combined without any call. -/
theorem combine_isResult {x y : Number} (leftView : left.toNumber? = some x)
    (rightView : right.toNumber? = some y) :
    (combine kernel op left right).run.Alike (combine other op left right).run
      fun result => ∃ tree, result = some tree ∧ IsResult (op.onNumbers x y) tree := by
  unfold combine
  cases found : firstError? left right with
  | some error =>
      have isResult : IsResult (op.onNumbers x y) error :=
        isResult_of_firstError? leftView rightView found
      exact Rule.Alike.orElse_of_succeeds (.pure isResult)
  | none =>
      change (numericRule op left right <|> _).run.Alike (numericRule op left right <|> _).run _
      exact Rule.Alike.orElse_of_succeeds (numericRule_isResult leftView rightView)

/-! ### Arrays -/

/-- The weight of the items of an array. -/
def load (items : List Expr) : ℚ := (items.map fun item => item.weight + 2).sum

theorem load_nonneg (items : List Expr) : 0 ≤ load items := by
  apply List.sum_nonneg
  intro shifted member
  obtain ⟨item, _, rfl⟩ := List.mem_map.mp member
  linarith [item.weight_pos]

theorem weight_array_eq (items : List Expr) (mark : Mark) :
    (Expr.array items mark).weight = load items + 6 :=
  Expr.weight_array items

theorem le_weight_array (items : List Expr) (mark : Mark) : 6 ≤ (Expr.array items mark).weight := by
  rw [weight_array_eq]
  linarith [load_nonneg items]

/-- The results of calls that weigh less than an array, as an array. -/
theorem forEach_alike {First : Type} {items : List First} {limit : ℚ} (call : First → Call)
    (agree : kernel.AgreeBelow other bound rank)
    (total : (items.map fun item => (call item).node.weight + 2).sum + 6 ≤ limit)
    (light : limit ≤ bound) :
    (do
      let results ← Traced.forEach (fun item => kernel.answer (call item)) items
      Expr.make (.array results) : Traced Expr).Alike
    (do
      let results ← Traced.forEach (fun item => other.answer (call item)) items
      Expr.make (.array results)) (·.weight ≤ limit) := by
  refine .bind (.forEach fun item member => agree (call item) (.inl ?_)) fun results fit =>
    .make fun mark => ?_
  · have nonneg : ∀ weight ∈ items.map fun item => (call item).node.weight + 2, 0 ≤ weight := by
      intro weight member
      obtain ⟨item, _, rfl⟩ := List.mem_map.mp member
      linarith [(call item).node.weight_pos]
    have least := List.single_le_sum nonneg _ (List.mem_map_of_mem member)
    linarith
  · rw [Expr.weight_withMark, Expr.weight_array]
    have sums : load results ≤ (items.map fun item => (call item).node.weight + 2).sum := by
      clear total
      induction fit with
      | nil => exact le_refl _
      | cons fits _ ih =>
          simp only [load, List.map_cons, List.sum_cons] at ih ⊢
          linarith [fits.light]
    simp only [load] at sums
    linarith

/-- The results of calls that each scale an item by one factor, as an array. -/
theorem scaled_alike {items : List Expr} {factor : ℚ} (call : Expr → Call)
    (agree : kernel.AgreeBelow other bound rank) (least : 1 ≤ factor)
    (scales : ∀ item, (call item).node.weight = factor * item.weight)
    (light : factor * (load items + 6) ≤ bound) :
    (do
      let results ← Traced.forEach (fun item => kernel.answer (call item)) items
      Expr.make (.array results) : Traced Expr).Alike
    (do
      let results ← Traced.forEach (fun item => other.answer (call item)) items
      Expr.make (.array results)) (·.weight ≤ factor * (load items + 6)) := by
  have total : (items.map fun item => (call item).node.weight + 2).sum ≤ factor * load items := by
    clear light
    induction items with
    | nil => simp [load]
    | cons item items ih =>
        simp only [load, List.map_cons, List.sum_cons] at ih ⊢
        rw [scales]
        linarith
  exact forEach_alike call agree (by linarith) light

/-- The load of the pairs of two arrays. -/
theorem paired_load (notPower : op ≠ .pow) (lefts rights : List Expr) :
    ((lefts.zip rights).map fun pair => (Expr.arith op pair.1 pair.2).weight + 2).sum ≤
      op.merged (load lefts) (load rights) := by
  induction lefts generalizing rights with
  | nil =>
      have nonneg := load_nonneg rights
      cases op <;> simp [load, ArithOp.merged] at nonneg ⊢ <;> exact nonneg
  | cons left lefts ih =>
      cases rights with
      | nil =>
          have nonneg := load_nonneg (left :: lefts)
          cases op <;> simp [load, ArithOp.merged] at nonneg ⊢ <;> linarith
      | cons right rights =>
          have rest := ih rights
          have leftNonneg := load_nonneg lefts
          have rightNonneg := load_nonneg rights
          have leftBound := left.weight_pos
          have rightBound := right.weight_pos
          simp only [load] at rest leftNonneg rightNonneg
          cases op with
          | pow => exact absurd rfl notPower
          | _ =>
              simp only [List.zip_cons_cons, load, List.map_cons, List.sum_cons, ArithOp.merged,
                Expr.weight_add, Expr.weight_sub, Expr.weight_mul, Expr.weight_div] at rest ⊢
              nlinarith

theorem elementwise_alike (agree : kernel.AgreeBelow other bound rank) (notPower : op ≠ .pow)
    {lefts rights : List Expr} (light : op.merged (load lefts + 6) (load rights + 6) ≤ bound) :
    (elementwise kernel op lefts rights).Alike (elementwise other op lefts rights)
      (·.weight ≤ op.merged (load lefts + 6) (load rights + 6)) := by
  have total := paired_load notPower lefts rights
  have leftNonneg := load_nonneg lefts
  have rightNonneg := load_nonneg rights
  have margin : op.merged (load lefts) (load rights) + 6 ≤
      op.merged (load lefts + 6) (load rights + 6) := by
    cases op <;> simp only [ArithOp.merged] <;> nlinarith
  unfold elementwise
  split
  · refine .make fun mark => ?_
    have nonneg : 0 ≤ op.merged (load lefts) (load rights) := by
      cases op <;> simp only [ArithOp.merged] <;> positivity
    exact le_trans (by linarith : (6 : ℚ) ≤ _) margin
  · exact forEach_alike (fun pair : Expr × Expr => .binary op pair.1 pair.2) agree
      (by simp only [Call.node]; linarith) light

theorem arrayRule_alike (agree : kernel.AgreeBelow other bound rank)
    (light : op.merged left.weight (op.rightWeight right) ≤ bound) :
    (arrayRule kernel op left right).Alike (arrayRule other op left right)
      (·.weight ≤ op.merged left.weight (op.rightWeight right)) := by
  unfold arrayRule
  split
  · rename_i lefts rights leftView rightView
    obtain ⟨_, rfl⟩ := Expr.eq_of_asArray? leftView
    obtain ⟨_, rfl⟩ := Expr.eq_of_asArray? rightView
    split
    · exact .failure
    · rename_i notPower
      rw [ArithOp.rightWeight_of_ne notPower, weight_array_eq, weight_array_eq] at light ⊢
      exact .lift (elementwise_alike agree notPower light)
  · rename_i lefts leftView _
    obtain ⟨mark, rfl⟩ := Expr.eq_of_asArray? leftView
    have least : 1 ≤ op.rightWeight right := by linarith [op.le_rightWeight right]
    cases op with
    | mul | div | pow =>
        simp only [ArithOp.merged, weight_array_eq, mul_comm _ (ArithOp.rightWeight _ right)]
          at light ⊢
        exact .lift (scaled_alike (fun item => .binary _ item right) agree least
          (fun item => mul_comm _ _) light)
    | add | sub =>
        dsimp only
        split
        · exact .lift (.make fun _ =>
            (le_weight_array lefts mark).trans (ArithOp.left_le_merged _))
        · exact .failure
  · rename_i rights _ rightView
    obtain ⟨mark, rfl⟩ := Expr.eq_of_asArray? rightView
    have least : 1 ≤ left.weight := by linarith [left.le_weight]
    cases op with
    | mul | div =>
        simp only [ArithOp.merged, ArithOp.rightWeight, weight_array_eq] at light ⊢
        exact .lift (scaled_alike (fun item => .binary _ left item) agree least
          (fun item => rfl) light)
    | add | sub =>
        dsimp only
        split
        · exact .lift (.make fun _ =>
            (le_weight_array rights mark).trans (ArithOp.right_le_merged _))
        · exact .failure
    | pow => exact .failure
  · exact .failure

theorem Expr.weight_of_isTextual {tree : Expr} (textual : tree.isTextual = true) :
    tree.weight = 6 := by
  cases tree <;> first | rfl | cases textual

theorem textRule_light :
    (textRule (.arith op) left right).Ensures (fun _ => True)
      (·.weight ≤ op.merged left.weight (op.rightWeight right)) := by
  unfold textRule
  split
  · exact .lift (.make fun mark => (ArithOp.left_le_merged _))
  · split
    · rename_i textual
      simp only [Bool.and_eq_true, Bool.or_eq_true] at textual
      refine .lift (.make fun mark => ?_)
      rcases textual.1.1 with isText | isText
      · exact (Expr.weight_of_isTextual isText).ge.trans (ArithOp.left_le_merged _)
      · exact (Expr.weight_of_isTextual isText).ge.trans (ArithOp.right_le_merged _)
    · exact .failure

end Structural

/-! ## Coefficients and signs -/

section Signs

variable {tree left right : Expr}

/-- A coefficient that is written down takes its weight off the rest. -/
def IsLightSplit (tree : Expr) (split : Number × Expr) : Prop :=
  3 / 2 * split.2.weight ≤ tree.weight ∨ split = (.int 1, tree)

theorem IsLightSplit.weight_le {split : Number × Expr} (light : IsLightSplit tree split) :
    split.2.weight ≤ tree.weight := by
  rcases light with explicit | rfl
  · linarith [split.2.weight_pos]
  · exact le_refl _

theorem splitCoefficient_light : (splitCoefficient tree).Ensures (IsLightSplit tree) := by
  induction tree using splitCoefficient.induct with
  | case1 left right mark coefficient view =>
      unfold splitCoefficient
      rw [view]
      refine .pure (.inl ?_)
      rw [Expr.weight_mul]
      exact mul_le_mul_of_nonneg_right left.le_weight right.weight_pos.le
  | case2 left right mark coefficient rightView leftView =>
      unfold splitCoefficient
      rw [leftView, rightView]
      refine .pure (.inl ?_)
      rw [Expr.weight_mul, mul_comm]
      exact mul_le_mul_of_nonneg_left right.le_weight left.weight_pos.le
  | case3 left right mark rightView leftView ih =>
      unfold splitCoefficient
      rw [leftView, rightView]
      refine .bind ih ?_
      rintro ⟨coefficient, rest⟩ light
      dsimp only
      split
      · exact .pure (.inr rfl)
      · rename_i notOne
        rcases light with light | equal
        · refine .bind (.make fun mark => ?_) fun product light => .pure (.inl light)
          rw [Expr.weight_withMark, Expr.weight_mul, Expr.weight_mul, ← mul_assoc]
          exact mul_le_mul_of_nonneg_right light right.weight_pos.le
        · cases equal
          exact absurd rfl notOne
  | case4 tree notProduct =>
      rw [splitCoefficient]
      · exact .pure (.inr rfl)
      · exact notProduct

theorem likeTerms_alike (agree : kernel.AgreeBelow other bound rank) {subtract : Bool}
    (gap : left.weight + right.weight + 1 / 4 ≤ bound) :
    (likeTerms kernel subtract left right).Alike (likeTerms other subtract left right)
      (·.weight ≤ left.weight + right.weight) := by
  refine .bind (.lift (.refl (.ofMarking splitCoefficient_light))) ?_
  rintro ⟨leftCoefficient, leftRest⟩ leftLight
  refine .bind (.lift (.refl (.ofMarking splitCoefficient_light))) ?_
  rintro ⟨rightCoefficient, rightRest⟩ rightLight
  dsimp only
  split
  · exact .failure
  · rename_i similar
    obtain ⟨_, similar⟩ : leftRest.isNumber = false ∧ (leftRest == rightRest) = true := by
      simpa [bne] using similar
    refine .bind (.lift (.refl numeric_isResult)) fun coefficient isResult => .lift ?_
    have product : coefficient.weight * leftRest.weight ≤ left.weight + right.weight := by
      have restWeight := Expr.weight_le_of_beq similar
      have leftBound := leftLight.weight_le
      have rightBound := rightLight.weight_le
      have positive := leftRest.weight_pos
      have upper := mul_le_mul_of_nonneg_right isResult.weight_le positive.le
      dsimp only at leftBound rightBound
      rcases leftLight with explicit | ⟨⟨⟩⟩
      · dsimp only at explicit
        linarith
      rcases rightLight with explicit | ⟨⟨⟩⟩
      · dsimp only at explicit
        linarith
      -- Two implicit coefficients add up to two and cancel to zero, which have no sign.
      have unsigned : coefficient.weight ≤ 3 / 2 := by
        cases subtract <;> exact isResult.weight_le_weight
      have upper := mul_le_mul_of_nonneg_right unsigned positive.le
      linarith
    exact agree.binary (by rw [Expr.weight_mul]; linarith) (by rwa [Expr.weight_mul])

theorem negateNumber_isResult {number : Number} :
    (negateNumber number).Ensures (fun _ => True) (IsResult number.neg) :=
  numeric_isResult

/-- The negative of a negative number has lost the weight of the sign. -/
theorem negateNumber_light {number : Number} (negative : number.isNegative = true) :
    (negateNumber number).Ensures (fun _ => True) (·.weight ≤ 2 / 3 * number.weight) := by
  refine negateNumber_isResult.mono fun result isResult => ?_
  have light := isResult.weight_le_weight
  rw [Number.weight_neg_of_isNegative negative] at light
  rw [Number.weight_of_isNegative negative]
  linarith

/-- The sign of a factor is taken off the first of its own factors. -/
theorem negatedFactor_alike (agree : kernel.AgreeBelow other bound rank) {op : ArithOp}
    (gap : 2 / 3 * (left.weight * right.weight) + 1 / 4 ≤ bound)
    (isProduct : ∀ left, (Expr.arith op left right).weight = left.weight * right.weight)
    (alike : 2 / 3 * left.weight + 1 / 4 ≤ bound → (negated kernel left).Alike (negated other left)
      (·.weight ≤ 2 / 3 * left.weight)) :
    (do
      guard !left.isNumber
      let positive ← negated kernel left
      kernel.binary op positive right : Rule Expr).Alike
    (do
      guard !left.isNumber
      let positive ← negated other left
      other.binary op positive right) (·.weight ≤ 2 / 3 * (left.weight * right.weight)) := by
  have leftBound := left.le_weight
  have rightBound := right.le_weight
  have inner : 2 / 3 * left.weight + 1 / 4 ≤ bound := by nlinarith
  refine .bind (.refl .guarded) fun _ _ => .bind (alike inner) fun positive light => .lift ?_
  have product := mul_le_mul_of_nonneg_right light right.weight_pos.le
  exact agree.binary (by rw [isProduct]; linarith) (by rw [isProduct]; linarith)

/-- A term that shows a minus sign weighs that much more than its positive
counterpart. -/
theorem negated_alike (agree : kernel.AgreeBelow other bound rank)
    (gap : 2 / 3 * tree.weight + 1 / 4 ≤ bound) :
    (negated kernel tree).Alike (negated other tree) (·.weight ≤ 2 / 3 * tree.weight) := by
  induction tree using negated.induct with
  | case1 value mark negative =>
      unfold negated
      rw [if_pos negative]
      exact .lift (.refl (negateNumber_light negative))
  | case2 value mark nonnegative =>
      unfold negated
      rw [if_neg nonnegative]
      exact .failure
  | case3 operand mark =>
      unfold negated
      exact .pure (by rw [Expr.weight_neg]; linarith)
  | case4 left right mark ih =>
      rw [Expr.weight_mul] at gap ⊢
      unfold negated
      refine .orElse (negatedFactor_alike agree gap (fun _ => rfl) ih) ?_
      split
      · rw [Expr.weight_neg] at gap ⊢
        exact .lift (agree.binary (by rw [Expr.weight_mul]; linarith)
          (by rw [Expr.weight_mul]; linarith))
      · exact .failure
  | case5 left right mark ih =>
      rw [Expr.weight_div] at gap ⊢
      unfold negated
      exact negatedFactor_alike agree gap (fun _ => rfl) ih
  | case6 tree notNumber notNegation notProduct notQuotient =>
      rw [negated, negated]
      · exact .failure
      all_goals assumption

theorem Call.rank_negate_le (operand : Expr) : (Call.negate operand).rank ≤ 3 := by
  rw [Call.rank]
  split <;> omega

theorem negateLeadingFactor_alike (agree : kernel.AgreeBelow other bound rank) (ranked : 3 < rank)
    (light : 3 / 2 * tree.weight ≤ bound) :
    (negateLeadingFactor kernel tree).Alike (negateLeadingFactor other tree)
      (·.weight ≤ 3 / 2 * tree.weight) := by
  have front {left right : Expr} (light : 3 / 2 * (left.weight * right.weight) ≤ bound) :
      3 / 2 * left.weight ≤ bound := by
    have leftBound := left.le_weight
    have rightBound := right.le_weight
    nlinarith
  induction tree using negateLeadingFactor.induct with
  | case1 left right mark ih =>
      rw [Expr.weight_mul] at light ⊢
      refine .bind (ih (front light)) fun negative negativeLight => .make fun mark => ?_
      rw [Expr.weight_withMark, Expr.weight_mul, ← mul_assoc]
      exact mul_le_mul_of_nonneg_right negativeLight right.weight_pos.le
  | case2 left right mark ih =>
      rw [Expr.weight_div] at light ⊢
      refine .bind (ih (front light)) fun negative negativeLight => .make fun mark => ?_
      rw [Expr.weight_withMark, Expr.weight_div, ← mul_assoc]
      exact mul_le_mul_of_nonneg_right negativeLight right.weight_pos.le
  | case3 factor notProduct notQuotient =>
      rw [negateLeadingFactor, negateLeadingFactor]
      · refine agree.negate (.inr ⟨light, ?_⟩) (le_refl _)
        exact lt_of_le_of_lt (Call.rank_negate_le factor) ranked
      all_goals assumption

/-- A product or quotient whose sign has been put in front of it. -/
theorem signInFront_alike (agree : kernel.AgreeBelow other bound rank) (ranked : 3 < rank)
    {op : ArithOp} (isProduct : (Expr.arith op left right).weight = left.weight * right.weight)
    (light : 3 / 2 * (left.weight * right.weight) ≤ bound) :
    (do
      let product ← kernel.binary op left right
      negateLeadingFactor kernel product : Rule Expr).Alike
    (do
      let product ← other.binary op left right
      negateLeadingFactor other product) (·.weight ≤ 3 / 2 * (left.weight * right.weight)) := by
  have leftBound := left.le_weight
  have rightBound := right.le_weight
  have gap : (Expr.arith op left right).weight + 1 / 4 ≤ bound := by
    rw [isProduct]
    nlinarith
  refine .bind (.lift (agree.binary gap (le_of_eq isProduct))) fun product productLight => .lift ?_
  exact (negateLeadingFactor_alike agree ranked (by linarith)).mono fun _ resultLight => by linarith

/-- A sign that moves into the coefficient of a product makes it heavier only when
the coefficient had none. -/
theorem signInCoefficient_below {value coefficient : Number} {factor : Expr} {mark : Mark}
    (ranked : coefficient.isSigned = false → 1 < rank) :
    (Call.binary .mul (.number value mark) factor).Below
      (3 / 2 * (coefficient.weight * factor.weight)) rank := by
  rw [Call.Below, Call.node, Expr.weight_mul, Expr.weight_number, ← mul_assoc]
  refine (value.weight_mul_below coefficient factor.le_weight).imp id ?_
  rintro ⟨signed, unsigned, light⟩
  exact ⟨light, by simpa [Call.rank, Expr.asNumber?, signed] using ranked unsigned⟩

end Signs

/-! ## Operators -/

section Operators

variable {left right base exponent : Expr}

theorem addIdentities_alike
    (agree : kernel.AgreeBelow other (left.weight + right.weight + 1) rank) :
    (addIdentities kernel left right).Alike (addIdentities other left right)
      (·.weight ≤ left.weight + right.weight) := by
  have leftBound := left.le_weight
  have rightBound := right.le_weight
  unfold addIdentities
  split
  · exact .pure (by linarith)
  split
  · exact .pure (by linarith)
  refine .orElse (likeTerms_alike agree (by linarith)) (.orElse ?_ ?_)
  · refine .bind (negated_alike agree (by linarith)) fun positive light => .lift ?_
    exact agree.binary (by rw [Expr.weight_sub]; linarith) (by rw [Expr.weight_sub]; linarith)
  · refine .bind (negated_alike agree (by linarith)) fun positive light => .lift ?_
    exact agree.binary (by rw [Expr.weight_sub]; linarith) (by rw [Expr.weight_sub]; linarith)

theorem subIdentities_alike
    (agree : kernel.AgreeBelow other (left.weight + 3 / 2 * right.weight) rank) :
    (subIdentities kernel left right).Alike (subIdentities other left right)
      (·.weight ≤ left.weight + 3 / 2 * right.weight) := by
  have leftBound := left.le_weight
  have rightBound := right.le_weight
  unfold subIdentities
  split
  · exact .pure (by linarith)
  split
  · exact .lift (agree.negate (.inl (by rw [Call.node, Expr.weight_neg]; linarith)) (by linarith))
  split
  · exact .pure (le_trans (by norm_num : (3 / 2 : ℚ) ≤ 9 / 4) (by linarith))
  refine .orElse ((likeTerms_alike agree (by linarith)).mono fun _ light => by linarith) ?_
  refine .bind (negated_alike agree (by linarith)) fun positive light => .lift ?_
  have positiveBound := positive.le_weight
  exact agree.binary (by rw [Expr.weight_add]; linarith) (by rw [Expr.weight_add]; linarith)

theorem mulSigns_alike
    (agree : kernel.AgreeBelow other (left.weight * right.weight)
      (Call.binary .mul left right).rank) :
    (mulSigns kernel left right).Alike (mulSigns other left right)
      (·.weight ≤ left.weight * right.weight) := by
  unfold mulSigns
  split
  · rename_i coefficient inner operand outer
    rw [Expr.weight_number, Expr.weight_neg, mul_left_comm] at agree ⊢
    refine .bind (.lift (.refl negateNumber_isResult)) fun flipped isResult => .lift ?_
    obtain ⟨value, mark, rfl, _⟩ := isResult
    exact agree.below (.binary .mul _ _)
      (signInCoefficient_below fun unsigned => by simp [Call.rank, Expr.asNumber?, unsigned])
  · rename_i first inner second outer
    have firstBound := first.le_weight
    have secondBound := second.le_weight
    rw [Expr.weight_neg, Expr.weight_neg] at agree ⊢
    exact .lift (agree.binary (by rw [Expr.weight_mul]; nlinarith)
      (by rw [Expr.weight_mul]; nlinarith))
  · rename_i operand mark factor _
    rw [Expr.weight_neg, mul_assoc] at agree ⊢
    split
    · exact .failure
    · exact signInFront_alike agree (by decide : 3 < 4) rfl (le_refl _)
  · rename_i operand mark notNumber _
    have ranked : 3 < (Call.binary .mul left (.unary .neg operand mark)).rank := by
      have view : left.asNumber? = none := by
        cases left <;> first | rfl | exact (notNumber _ _ rfl).elim
      simp [Call.rank, view]
    rw [Expr.weight_neg, mul_left_comm] at agree ⊢
    exact signInFront_alike agree ranked rfl (le_refl _)
  · exact .failure

/-! ### Powers of one base -/

/-- The weight that an exponent adds to its base; an exponent that is not written
down is one, and adds none. -/
def IsShare (exponent : Expr) (share : ℚ) : Prop :=
  share = exponent.exponentWeight ∨ share = 1 ∧ exponent = .int 1

theorem baseExponent_weight (factor : Expr) :
    ∃ share, IsShare (baseExponent factor).2 share ∧
      factor.weight = (baseExponent factor).1.weight * share := by
  unfold baseExponent
  split
  · exact ⟨_, .inl rfl, rfl⟩
  · exact ⟨1, .inr ⟨rfl, rfl⟩, (mul_one _).symm⟩

theorem weight_one : (Expr.int 1).weight = 3 / 2 := rfl

namespace IsShare

variable {share : ℚ}

theorem weight_le (isShare : IsShare exponent share) : 2 / 3 * exponent.weight ≤ share := by
  rcases isShare with rfl | ⟨rfl, rfl⟩
  · linarith [exponent.weight_le_exponentWeight, exponent.weight_pos]
  · norm_num [weight_one]

theorem le (isShare : IsShare exponent share) : 1 ≤ share := by
  linarith [isShare.weight_le, exponent.le_weight]

theorem of_not_number (isShare : IsShare exponent share) (notNumber : exponent.isNumber = false) :
    share = 3 * exponent.weight := by
  rcases isShare with rfl | ⟨_, rfl⟩
  · rw [Expr.exponentWeight, notNumber, if_neg Bool.false_ne_true]
  · cases notNumber

end IsShare

section Exponents

variable {op : ArithOp} {leftShare rightShare : ℚ}

/-- Sums and differences of exponents are light against the powers that they are
taken from. -/
theorem exponents_below (isSum : op = .add ∨ op = .sub) (leftIsShare : IsShare left leftShare)
    (rightIsShare : IsShare right rightShare) :
    (Expr.arith op left right).weight + 1 / 4 ≤ 81 / 16 * (leftShare * rightShare) := by
  have leftBound := left.le_weight
  have rightBound := right.le_weight
  have product : 0 ≤ (left.weight - 3 / 2) * (right.weight - 3 / 2) :=
    mul_nonneg (by linarith) (by linarith)
  have shares : 2 / 3 * left.weight * (2 / 3 * right.weight) ≤ leftShare * rightShare :=
    mul_le_mul leftIsShare.weight_le rightIsShare.weight_le (by linarith)
      (by linarith [leftIsShare.le])
  rcases isSum with rfl | rfl <;> simp only [Expr.weight_add, Expr.weight_sub] <;> linarith

theorem IsResult.exponentWeight_eq {number : Number} (isResult : IsResult number exponent) :
    exponent.exponentWeight = exponent.weight := by
  obtain ⟨value, mark, rfl, _⟩ := isResult
  rfl

/-- The exponent of the common power is lighter than those it was computed from, if
these are numbers. -/
theorem exponent_of_numbers {exponent : Expr} {x y : Number} {leftMark rightMark : Mark}
    (isSum : op = .add ∨ op = .sub) (leftIsShare : IsShare (.number x leftMark) leftShare)
    (rightIsShare : IsShare (.number y rightMark) rightShare)
    (isResult : IsResult (op.onNumbers x y) exponent) :
    exponent.exponentWeight + 1 / 9 ≤ 9 / 4 * (leftShare * rightShare) := by
  have xBound := x.le_weight
  have yBound := y.le_weight
  have light := isResult.weight_le
  rw [isResult.exponentWeight_eq]
  rcases leftIsShare with rfl | ⟨rfl, one⟩
  · rw [Expr.exponentWeight_number]
    nlinarith [rightIsShare.le]
  rcases rightIsShare with rfl | ⟨rfl, otherOne⟩
  · rw [Expr.exponentWeight_number]
    linarith
  · -- One and one make two, and cancel to zero, neither of which has a sign.
    cases one
    cases otherOne
    have unsigned : exponent.weight ≤ 3 / 2 := by
      rcases isSum with rfl | rfl <;> exact isResult.weight_le_weight
    linarith

/-- The exponent of the common power is lighter than those it was computed from,
by a margin. -/
theorem exponent_light {exponent : Expr} (isSum : op = .add ∨ op = .sub)
    (leftIsShare : IsShare left leftShare) (rightIsShare : IsShare right rightShare)
    (fits : (Call.binary op left right).Fits exponent) :
    exponent.exponentWeight + 1 / 9 ≤ 9 / 4 * (leftShare * rightShare) := by
  have leftBound := left.le_weight
  have rightBound := right.le_weight
  have leftWithin := leftIsShare.weight_le
  have rightWithin := rightIsShare.weight_le
  have within := exponent.exponentWeight_le
  have light := fits.light
  rcases leftView : left.isNumber with _ | _
  · have heavy := Expr.le_weight_of_not_number leftView
    have share := leftIsShare.of_not_number leftView
    have product : 3 * left.weight * (2 / 3 * right.weight) ≤ leftShare * rightShare := by
      rw [share]
      gcongr
    have above : 0 ≤ (left.weight - 9 / 4) * (right.weight - 3 / 2) :=
      mul_nonneg (by linarith) (by linarith)
    rcases isSum with rfl | rfl <;>
      simp only [Call.node, Expr.weight_add, Expr.weight_sub] at light <;> linarith
  rcases rightView : right.isNumber with _ | _
  · have heavy := Expr.le_weight_of_not_number rightView
    have share := rightIsShare.of_not_number rightView
    have product : 2 / 3 * left.weight * (3 * right.weight) ≤ leftShare * rightShare := by
      rw [share]
      gcongr
    have above : 0 ≤ (left.weight - 3 / 2) * (right.weight - 9 / 4) :=
      mul_nonneg (by linarith) (by linarith)
    rcases isSum with rfl | rfl <;>
      simp only [Call.node, Expr.weight_add, Expr.weight_sub] at light <;> linarith
  · cases left <;> cases leftView
    cases right <;> cases rightView
    exact exponent_of_numbers isSum leftIsShare rightIsShare (fits.computed _ rfl)

/-- A negative difference was taken from an exponent that is written down. -/
theorem share_of_negative {exponent : Expr} (leftIsShare : IsShare left leftShare)
    (rightIsShare : IsShare right rightShare) (fits : (Call.binary .sub left right).Fits exponent)
    (negative : exponent.isNegativeNumber = true) : 3 / 2 ≤ leftShare * rightShare := by
  have leftBound := left.le_exponentWeight
  have rightBound := right.le_exponentWeight
  rcases leftIsShare with rfl | ⟨rfl, rfl⟩ <;> rcases rightIsShare with rfl | ⟨rfl, rfl⟩
  · nlinarith
  · linarith
  · linarith
  · obtain ⟨value, mark, rfl, rfl | undefined⟩ := fits.computed _ rfl
    · cases negative
    · rw [Number.isNaN_of_isNegative negative] at undefined
      cases undefined

end Exponents

/-- What two factors weigh against their common base. -/
theorem commonBase_weight (notNumber : (baseExponent left).1.isNumber = false)
    (similar : ((baseExponent left).1 == (baseExponent right).1) = true) :
    ∃ leftShare rightShare, IsShare (baseExponent left).2 leftShare ∧
      IsShare (baseExponent right).2 rightShare ∧
      81 / 16 * (leftShare * rightShare) ≤ left.weight * right.weight ∧
      (baseExponent left).1.weight * (9 / 4 * (leftShare * rightShare)) ≤
        left.weight * right.weight := by
  obtain ⟨leftShare, leftIsShare, leftWeight⟩ := baseExponent_weight left
  obtain ⟨rightShare, rightIsShare, rightWeight⟩ := baseExponent_weight right
  have baseHeavy := Expr.le_weight_of_not_number notNumber
  have otherHeavy := baseHeavy.trans (Expr.weight_le_of_beq similar)
  have leftLeast := leftIsShare.le
  have rightLeast := rightIsShare.le
  have shares : 0 ≤ leftShare * rightShare := by positivity
  have scaled : (baseExponent left).1.weight * (9 / 4 * (leftShare * rightShare)) ≤
      left.weight * right.weight := by
    calc (baseExponent left).1.weight * (9 / 4 * (leftShare * rightShare))
        ≤ (baseExponent left).1.weight * ((baseExponent right).1.weight *
            (leftShare * rightShare)) := by gcongr
      _ = left.weight * right.weight := by
          rw [leftWeight, rightWeight, ← mul_assoc, mul_mul_mul_comm]
  refine ⟨leftShare, rightShare, leftIsShare, rightIsShare, le_trans ?_ scaled, scaled⟩
  nlinarith

theorem mulPowers_alike (agree : kernel.AgreeBelow other (left.weight * right.weight) rank) :
    (mulPowers kernel left right).Alike (mulPowers other left right)
      (·.weight ≤ left.weight * right.weight) := by
  unfold mulPowers
  dsimp only
  split
  · exact .failure
  · rename_i similar
    obtain ⟨notNumber, similar⟩ : (baseExponent left).1.isNumber = false ∧
        ((baseExponent left).1 == (baseExponent right).1) = true := by
      simpa [bne] using similar
    have heavy := Expr.le_weight_of_not_number notNumber
    obtain ⟨leftShare, rightShare, leftIsShare, rightIsShare, total, scaled⟩ :=
      commonBase_weight notNumber similar
    have below := exponents_below (.inl rfl) leftIsShare rightIsShare
    refine .bind (.lift (agree (.binary .add _ _) (.inl (below.trans total)))) fun exponent fits =>
      .lift ?_
    have light := exponent_light (.inl rfl) leftIsShare rightIsShare fits
    have power := (mul_le_mul_of_nonneg_left light (Expr.weight_pos _).le).trans scaled
    exact agree.binary (by rw [Expr.weight_pow]; linarith) (by rw [Expr.weight_pow]; linarith)

theorem Expr.weight_of_isMinusOne {tree : Expr} (minusOne : tree.isMinusOne = true) :
    tree.weight = 9 / 4 := by
  cases tree with
  | number value mark =>
      exact Number.weight_of_isNegative (Number.isNegative_of_isMinusOne minusOne)
  | _ => cases minusOne

theorem mulIdentities_alike
    (agree : kernel.AgreeBelow other (left.weight * right.weight)
      (Call.binary .mul left right).rank) :
    (mulIdentities kernel left right).Alike (mulIdentities other left right)
      (·.weight ≤ left.weight * right.weight) := by
  have leftBound := left.le_weight
  have rightBound := right.le_weight
  unfold mulIdentities
  split
  · exact .pure ArithOp.mul.left_le_merged
  split
  · exact .pure ArithOp.mul.right_le_merged
  split
  · exact .pure ArithOp.mul.right_le_merged
  split
  · exact .pure ArithOp.mul.left_le_merged
  split
  · rename_i minusOne
    rw [Expr.weight_of_isMinusOne minusOne] at agree ⊢
    exact .lift (agree.negate (.inl (by rw [Call.node, Expr.weight_neg]; linarith)) (by linarith))
  split
  · rename_i minusOne
    rw [Expr.weight_of_isMinusOne minusOne] at agree ⊢
    exact .lift (agree.negate (.inl (by rw [Call.node, Expr.weight_neg]; linarith)) (by linarith))
  · exact .orElse (mulSigns_alike agree) (mulPowers_alike agree)

theorem tangentRule_light :
    (tangentRule left right).Ensures (fun _ => True) (·.weight ≤ left.weight * right.weight) := by
  unfold tangentRule
  split
  · split
    · exact .lift (.make fun mark => ArithOp.mul.left_le_merged)
    · exact .failure
  · exact .failure

theorem divSigns_alike (agree : kernel.AgreeBelow other (left.weight * right.weight) rank)
    (ranked : 3 < rank) :
    (divSigns kernel left right).Alike (divSigns other left right)
      (·.weight ≤ left.weight * right.weight) := by
  unfold divSigns
  split
  · rename_i first inner second outer
    have firstBound := first.le_weight
    have secondBound := second.le_weight
    rw [Expr.weight_neg, Expr.weight_neg] at agree ⊢
    exact .lift (agree.binary (by rw [Expr.weight_div]; nlinarith)
      (by rw [Expr.weight_div]; nlinarith))
  · rw [Expr.weight_neg, mul_assoc] at agree ⊢
    exact signInFront_alike agree ranked rfl (le_refl _)
  · rw [Expr.weight_neg, mul_left_comm] at agree ⊢
    exact signInFront_alike agree ranked rfl (le_refl _)
  · exact .failure

/-- The negative of a negative exponent has no sign. -/
theorem negateExponent_alike (agree : kernel.AgreeBelow other bound rank)
    (negative : exponent.isNegativeNumber = true) (room : 27 / 8 + 1 / 4 ≤ bound) :
    (kernel.negate exponent).Alike (other.negate exponent) (·.exponentWeight ≤ 3 / 2) := by
  cases exponent with
  | number value mark =>
      have below : (Call.negate (.number value mark)).Below bound rank := by
        left
        rw [Call.node, Expr.weight_neg, Expr.weight_number]
        linarith [value.weight_le]
      refine (agree _ below).mono fun positive fits => ?_
      have computed := fits.computed _ rfl
      have light := computed.weight_le_weight
      rwa [Number.weight_neg_of_isNegative negative, ← computed.exponentWeight_eq] at light
  | _ => cases negative

theorem divPowers_alike (agree : kernel.AgreeBelow other (left.weight * right.weight) rank) :
    (divPowers kernel left right).Alike (divPowers other left right)
      (·.weight ≤ left.weight * right.weight) := by
  unfold divPowers
  dsimp only
  split
  · exact .failure
  · rename_i similar
    obtain ⟨notNumber, similar⟩ : (baseExponent left).1.isNumber = false ∧
        ((baseExponent left).1 == (baseExponent right).1) = true := by
      simpa [bne] using similar
    have heavy := Expr.le_weight_of_not_number notNumber
    obtain ⟨leftShare, rightShare, leftIsShare, rightIsShare, total, scaled⟩ :=
      commonBase_weight notNumber similar
    have below := exponents_below (.inr rfl) leftIsShare rightIsShare
    refine .bind (.lift (agree (.binary .sub _ _) (.inl (below.trans total))))
      fun exponent fits => ?_
    split
    · rename_i negative
      have written := share_of_negative leftIsShare rightIsShare fits negative
      have room : (baseExponent left).1.weight * (27 / 8) ≤ left.weight * right.weight :=
        le_trans (mul_le_mul_of_nonneg_left (by linarith) (Expr.weight_pos _).le) scaled
      have negated := negateExponent_alike agree negative (by linarith)
      refine .bind (.lift negated) fun positive light => ?_
      have power := mul_le_mul_of_nonneg_left light (baseExponent left).1.weight_pos.le
      refine .bind (.lift (agree.binary (by rw [Expr.weight_pow]; linarith) (le_refl _)))
        fun power powerLight => .lift ?_
      rw [Expr.weight_pow] at powerLight
      exact agree.binary (by rw [Expr.weight_div, weight_one]; linarith)
        (by rw [Expr.weight_div, weight_one]; linarith)
    · have light := exponent_light (.inr rfl) leftIsShare rightIsShare fits
      have power := (mul_le_mul_of_nonneg_left light (Expr.weight_pos _).le).trans scaled
      exact .lift (agree.binary (by rw [Expr.weight_pow]; linarith)
        (by rw [Expr.weight_pow]; linarith))

theorem divIdentities_alike (agree : kernel.AgreeBelow other (left.weight * right.weight) rank)
    (ranked : 3 < rank) :
    (divIdentities kernel left right).Alike (divIdentities other left right)
      (·.weight ≤ left.weight * right.weight) := by
  have leftBound := left.le_weight
  unfold divIdentities
  split
  · exact .pure (ArithOp.left_le_merged .div)
  split
  · rename_i minusOne
    rw [Expr.weight_of_isMinusOne minusOne] at agree ⊢
    exact .lift (agree.negate (.inl (by rw [Call.node, Expr.weight_neg]; linarith)) (by linarith))
  split
  · exact .pure (ArithOp.left_le_merged .div)
  split
  · exact .pure (weight_one.le.trans (le_trans (by norm_num) (ArithOp.le_merged .div)))
  · exact .orElse (.refl tangentRule_light)
      (.orElse (divSigns_alike agree ranked) (divPowers_alike agree))

theorem Call.lt_rank_pow : 4 < (Call.binary .pow base exponent).rank := by
  rw [Call.rank]
  split <;> omega

/-- The product of two exponents makes the power heavier only when it has a sign
and the outer exponent had none. -/
theorem powerOfPower_below {value first second : Number} {inner : Expr} {mark : Mark}
    (ranked : second.isSigned = false → 5 < rank) :
    (Call.binary .pow inner (.number value mark)).Below
      (inner.weight * first.weight * second.weight) rank := by
  have heavier : 3 / 2 * second.weight * inner.weight ≤
      inner.weight * first.weight * second.weight := by
    have positive := mul_nonneg inner.weight_pos.le ((by norm_num : (0 : ℚ) ≤ 3 / 2).trans
      second.le_weight)
    nlinarith [first.le_weight]
  rw [Call.Below, Call.node, Expr.weight_pow, Expr.exponentWeight_number, mul_comm inner.weight]
  rcases value.weight_mul_below second inner.le_weight with gap | ⟨signed, unsigned, light⟩
  · exact .inl (gap.trans heavier)
  · refine .inr ⟨light.trans heavier, ?_⟩
    simpa [Call.rank, Expr.asNumber?, signed] using ranked unsigned

theorem powOfNode_alike
    (agree : kernel.AgreeBelow other (base.weight * exponent.exponentWeight)
      (Call.binary .pow base exponent).rank) :
    (powOfNode kernel base exponent).Alike (powOfNode other base exponent)
      (·.weight ≤ base.weight * exponent.exponentWeight) := by
  unfold powOfNode
  split
  · rename_i inner innerExponent mark second view
    obtain ⟨outer, rfl⟩ := Expr.eq_of_asNumber? view
    refine .bind (.refl .guarded) fun _ isNumber => ?_
    cases innerExponent with
    | number first mark =>
        have innerBound := inner.le_weight
        have firstBound := first.le_weight
        have secondBound := second.le_weight
        rw [Expr.weight_pow, Expr.exponentWeight_number, Expr.exponentWeight_number] at agree ⊢
        have product : 9 / 4 ≤ first.weight * second.weight := by nlinarith
        have gap : first.weight * second.weight + 1 / 4 ≤
            inner.weight * first.weight * second.weight := by nlinarith
        refine .bind (.lift (agree (.binary .mul _ _) (.inl gap))) fun product fits => .lift ?_
        obtain ⟨value, mark, rfl, _⟩ := fits.computed _ rfl
        exact agree.below (.binary .pow _ _)
          (powerOfPower_below fun unsigned => by simp [Call.rank, Expr.asNumber?, unsigned])
    | _ => cases isNumber
  · rename_i operand mark power view
    have operandBound := operand.le_weight
    have exponentBound := exponent.le_exponentWeight
    rw [Expr.weight_neg, mul_assoc] at agree ⊢
    refine .bind (.lift (agree.binary (by rw [Expr.weight_pow]; nlinarith) (le_refl _)))
      fun magnitude light => ?_
    rw [Expr.weight_pow] at light
    split
    · exact .pure (by linarith [magnitude.weight_pos])
    · refine .lift (agree.negate (.inr ⟨?_, ?_⟩) (by linarith))
      · rw [Call.node, Expr.weight_neg]
        linarith
      · exact (Call.rank_negate_le magnitude).trans_lt ((by decide : 3 < 4).trans Call.lt_rank_pow)
  · exact .failure

theorem powIdentities_alike
    (agree : kernel.AgreeBelow other (base.weight * exponent.exponentWeight)
      (Call.binary .pow base exponent).rank) :
    (powIdentities kernel base exponent).Alike (powIdentities other base exponent)
      (·.weight ≤ base.weight * exponent.exponentWeight) := by
  unfold powIdentities
  split
  · exact .pure (weight_one.le.trans (le_trans (by norm_num) (ArithOp.le_merged .pow)))
  split
  · exact .pure (ArithOp.left_le_merged .pow)
  split
  · exact .pure (ArithOp.left_le_merged .pow)
  · exact powOfNode_alike agree

theorem identities_alike {op : ArithOp}
    (agree : kernel.AgreeBelow other (Expr.arith op left right).weight
      (Call.binary op left right).rank) :
    (identities kernel op left right).Alike (identities other op left right)
      (·.weight ≤ op.merged left.weight (op.rightWeight right)) := by
  cases op with
  | add => exact addIdentities_alike agree
  | sub => exact subIdentities_alike agree
  | mul => exact mulIdentities_alike agree
  | div => exact divIdentities_alike agree (by decide : 3 < 4)
  | pow => exact powIdentities_alike agree

/-- All rules call only on operations below the one that they are applied to, and
merge the operands. -/
theorem combine_alike {op : ArithOp}
    (agree : kernel.AgreeBelow other (Expr.arith op left right).weight
      (Call.binary op left right).rank) :
    (combine kernel op left right).Alike (combine other op left right)
      (·.weight ≤ op.merged left.weight (op.rightWeight right)) :=
  .orElse (.refl firstError?_light) (.orElse (.refl numericRule_light)
    (.orElse (arrayRule_alike agree op.merged_le_weight) (.orElse (.refl textRule_light)
      (identities_alike agree))))

end Operators

end SymbolicAlgebra
