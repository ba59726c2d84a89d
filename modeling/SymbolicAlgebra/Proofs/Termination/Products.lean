import SymbolicAlgebra.Proofs.Termination.Collection

/-!
# The calls of collecting products

The invariant of the two lists bounds the weight of the product that they would be
folded into, with the sign that has been pulled out of it, and apart from it the
weight of the factors that are not numbers.  Numbers are computed without any call,
so a product that a number leads calls on less than itself.
-/

namespace SymbolicAlgebra

variable {kernel other : Kernel} {bound limit : ℚ} {negative : Bool} {term : Expr}
  {up down ups downs : List Expr}

/-- The weight of a factor that calls may be made for; numbers are computed without
any. -/
def core (term : Expr) : ℚ := if term.toNumber?.isSome then 1 else term.weight

/-- The weight of a factor before its sign is taken off, without that of a sign for
a number. -/
def share (term : Expr) : ℚ :=
  if term.toNumber?.isSome then 2 / 3 * term.weight else term.weight

theorem one_le_core (term : Expr) : 1 ≤ core term := by
  unfold core
  split
  · exact le_refl 1
  · linarith [term.le_weight]

theorem core_of_toNumber? (view : term.toNumber? = none) : core term = term.weight := by
  rw [core, view]
  rfl

theorem core_le_weight (term : Expr) : core term ≤ term.weight := by
  unfold core
  split
  · linarith [term.le_weight]
  · exact le_refl _

theorem core_le_share (term : Expr) : core term ≤ share term := by
  unfold core share
  split
  · linarith [term.le_weight]
  · exact le_refl _

theorem one_le_share (term : Expr) : 1 ≤ share term :=
  (one_le_core term).trans (core_le_share term)

theorem share_le_weight (term : Expr) : share term ≤ term.weight := by
  unfold share
  split
  · linarith [term.weight_pos]
  · exact le_refl _

/-- The product of a measure over all factors. -/
def product (measure : Expr → ℚ) (up down : List Expr) : ℚ :=
  (up.map measure).prod * (down.map measure).prod

variable {measure : Expr → ℚ}

@[simp] theorem product_nil : product measure [] [] = 1 := by
  simp [product]

@[simp] theorem product_cons :
    product measure (term :: up) down = measure term * product measure up down := by
  simp [product, mul_assoc]

@[simp] theorem product_consDown :
    product measure up (term :: down) = measure term * product measure up down := by
  simp [product, mul_left_comm]

@[simp] theorem product_append : product measure (up ++ ups) (down ++ downs) =
    product measure up down * product measure ups downs := by
  simp [product, mul_mul_mul_comm]

theorem product_comm (up down : List Expr) :
    product measure up down = product measure down up :=
  mul_comm _ _

theorem product_perm (upOrder : up.Perm ups) (downOrder : down.Perm downs) :
    product measure up down = product measure ups downs := by
  rw [product, product, (upOrder.map _).prod_eq, (downOrder.map _).prod_eq]

theorem one_le_product (least : ∀ term, 1 ≤ measure term) (up down : List Expr) :
    1 ≤ product measure up down := by
  have onList (list : List Expr) : 1 ≤ (list.map measure).prod := by
    induction list with
    | nil => simp
    | cons term list ih =>
        rw [List.map_cons, List.prod_cons]
        exact one_le_mul_of_one_le_of_one_le (least term) ih
  exact one_le_mul_of_one_le_of_one_le (onList up) (onList down)

/-- The weight of a sign that has been pulled out. -/
def signWeight (negative : Bool) : ℚ := if negative then 3 / 2 else 1

theorem one_le_signWeight (negative : Bool) : 1 ≤ signWeight negative := by
  cases negative <;> norm_num [signWeight]

theorem signWeight_not_le (negative : Bool) :
    signWeight (!negative) ≤ 3 / 2 * signWeight negative := by
  cases negative <;> norm_num [signWeight]

theorem signWeight_bne_le (first second : Bool) :
    signWeight (first != second) ≤ signWeight first * signWeight second := by
  cases first <;> cases second <;> norm_num [signWeight]

/-- The product of the factors with its sign weighs no more than the bound.  It
starts with a factor or else with a one.  The factors that calls are made for
weigh no more than the limit. -/
structure ProductFits (bound limit : ℚ) (negative : Bool) (up down : List Expr) : Prop where
  total : product Expr.weight up down * signWeight negative ≤ bound
  bare : up = [] → 3 / 2 * (product Expr.weight up down * signWeight negative) ≤ bound
  calls : product core up down * signWeight negative ≤ limit

/-- Lighter factors fit as well, with room for a one if none are left. -/
theorem ProductFits.of_le (fits : ProductFits bound limit negative up down)
    (light : product Expr.weight ups downs ≤ product Expr.weight up down)
    (calls : product core ups downs ≤ product core up down)
    (bare : ups = [] →
      up = [] ∨ 3 / 2 * product Expr.weight ups downs ≤ product Expr.weight up down) :
    ProductFits bound limit negative ups downs := by
  have positive := (zero_le_one' ℚ).trans (one_le_signWeight negative)
  have lighter := mul_le_mul_of_nonneg_right light positive
  refine ⟨lighter.trans fits.total, fun empty => ?_, ?_⟩
  · rcases bare empty with wasEmpty | room
    · linarith [fits.bare wasEmpty]
    · have roomy := mul_le_mul_of_nonneg_right room positive
      rw [mul_assoc] at roomy
      exact roomy.trans fits.total
  · exact (mul_le_mul_of_nonneg_right calls positive).trans fits.calls

theorem TermKey.rank_eq_of_compare {first second : TermKey}
    (same : (first.compare second == .eq) = true) : first.rank = second.rank := by
  cases first <;> cases second <;> first | rfl | cases same

theorem TermKey.rank_ofFactor (term : Expr) :
    (TermKey.ofFactor term).rank = 3 ↔ term.toNumber?.isSome = true := by
  unfold TermKey.ofFactor
  split <;> simp_all [TermKey.rank, Expr.toNumber?]

/-- Factors with equal keys are both numbers or both none. -/
theorem isSome_toNumber?_of_sameKey {first second : Expr}
    (same : sameKey .multiplicative first second = true) :
    first.toNumber?.isSome = second.toNumber?.isSome := by
  have ranks : (TermKey.ofFactor first).rank = (TermKey.ofFactor second).rank :=
    TermKey.rank_eq_of_compare same
  rw [Bool.eq_iff_iff, ← TermKey.rank_ofFactor, ← TermKey.rank_ofFactor, ranks]

theorem Call.rank_product_le {op : ArithOp} (isProduct : op = .mul ∨ op = .div)
    (left right : Expr) : (Call.binary op left right).rank ≤ 4 := by
  rcases isProduct with rfl | rfl
  · simp only [Call.rank]
    split
    · split <;> omega
    · exact le_refl 4
  · exact le_refl 4

/-- Factors with equal keys are merged by calls that weigh no more than they do. -/
theorem combine_factors_alike (agree : kernel.AgreeBelow other limit 4) {op : ArithOp}
    (isProduct : op = .mul ∨ op = .div) {first second : Expr}
    (same : sameKey .multiplicative first second = true)
    (light : core first * core second ≤ limit) :
    (combine kernel op first second).Alike (combine other op first second) fun merged =>
      merged.weight ≤ first.weight * second.weight ∧ core merged ≤ core first * core second := by
  have numeric := isSome_toNumber?_of_sameKey same
  have weights : op.merged first.weight (op.rightWeight second) =
      first.weight * second.weight := by
    rcases isProduct with rfl | rfl <;> rfl
  cases firstView : first.toNumber? with
  | some x =>
      rw [firstView, Option.isSome_some] at numeric
      obtain ⟨y, secondView⟩ := Option.isSome_iff_exists.mp numeric.symm
      refine Traced.Alike.mono (combine_isResult firstView secondView) ?_
      rintro _ ⟨merged, rfl, isResult⟩ _ ⟨⟩
      refine ⟨weights ▸ isResult.weight_le.trans op.le_merged, ?_⟩
      obtain ⟨value, mark, rfl, _⟩ := isResult
      exact one_le_mul_of_one_le_of_one_le (one_le_core first) (one_le_core second)
  | none =>
      rw [firstView, Option.isSome_none] at numeric
      have secondView := Option.isSome_eq_false_iff.mp numeric.symm
      rw [Option.isNone_iff_eq_none] at secondView
      rw [core_of_toNumber? firstView, core_of_toNumber? secondView] at light ⊢
      have node : (Expr.arith op first second).weight ≤ limit := by
        rcases isProduct with rfl | rfl <;> exact light
      refine (combine_alike (agree.restrict node (Call.rank_product_le isProduct _ _))).mono
        fun merged mergedLight => ?_
      rw [weights] at mergedLight
      exact ⟨mergedLight, (core_le_weight merged).trans mergedLight⟩

theorem one_le_weight (term : Expr) : 1 ≤ term.weight := by
  linarith [term.le_weight]

/-- Two factors of equal keys give way to one that is no heavier. -/
theorem ProductFits.merge (agree : kernel.AgreeBelow other limit 4) {op : ArithOp}
    (isProduct : op = .mul ∨ op = .div) {first second : Expr} {restUp restDown : List Expr}
    {mergedUp mergedDown : Expr → List Expr} (fits : ProductFits bound limit negative up down)
    (same : sameKey .multiplicative first second = true)
    (before : ∀ measure, product measure up down =
      measure first * measure second * product measure restUp restDown)
    (after : ∀ merged measure, product measure (mergedUp merged) (mergedDown merged) =
      measure merged * product measure restUp restDown)
    (bare : ∀ merged, mergedUp merged = [] → up = []) :
    (combine kernel op first second).Alike (combine other op first second) fun merged =>
      ProductFits bound limit negative (mergedUp merged) (mergedDown merged) := by
  have restWeights := one_le_product one_le_weight restUp restDown
  have restCores := one_le_product one_le_core restUp restDown
  have light : core first * core second ≤ limit := by
    have pair := one_le_mul_of_one_le_of_one_le (one_le_core first) (one_le_core second)
    have sign := one_le_signWeight negative
    have calls := fits.calls
    rw [before] at calls
    calc core first * core second
        ≤ core first * core second * product core restUp restDown :=
          le_mul_of_one_le_right (by linarith) restCores
      _ ≤ core first * core second * product core restUp restDown * signWeight negative :=
          le_mul_of_one_le_right (by positivity) sign
      _ ≤ limit := calls
  refine (combine_factors_alike agree isProduct same light).mono fun merged holds => ?_
  refine fits.of_le ?_ ?_ fun empty => .inl (bare merged empty)
  · rw [before, after]
    exact mul_le_mul_of_nonneg_right holds.1 (by linarith)
  · rw [before, after]
    exact mul_le_mul_of_nonneg_right holds.2 (by linarith)

/-- A factor gives way to a lighter one, with room for a one beside it. -/
theorem ProductFits.lighten (fits : ProductFits bound limit negative up down) {inverse : Expr}
    {restUp restDown : List Expr}
    (before : ∀ measure, product measure up down = measure term * product measure restUp restDown)
    (after : ∀ measure,
      product measure ups downs = measure inverse * product measure restUp restDown)
    (light : inverse.weight ≤ 2 / 3 * term.weight) (view : term.toNumber? = none) :
    ProductFits bound limit negative ups downs := by
  have restWeights := one_le_product one_le_weight restUp restDown
  have restCores := one_le_product one_le_core restUp restDown
  have positive := term.weight_pos
  refine fits.of_le ?_ ?_ fun _ => .inr ?_
  · rw [before, after]
    exact mul_le_mul_of_nonneg_right (by linarith) (by linarith)
  · rw [before, after, core_of_toNumber? view]
    exact mul_le_mul_of_nonneg_right (by linarith [core_le_weight inverse]) (by linarith)
  · rw [before, after, ← mul_assoc]
    exact mul_le_mul_of_nonneg_right (by linarith) (by linarith)

theorem core_of_isNeutral (neutral : Chain.multiplicative.isNeutral term = true) :
    core term = 1 := by
  cases term <;> first | rfl | cases neutral

theorem ProductFits.drop (fits : ProductFits bound limit negative up down)
    (before : ∀ measure, product measure up down = measure term * product measure ups downs)
    (neutral : Chain.multiplicative.isNeutral term = true) :
    ProductFits bound limit negative ups downs := by
  have weights := one_le_product one_le_weight ups downs
  have heavy := term.le_weight
  refine fits.of_le ?_ ?_ fun _ => .inr ?_
  · rw [before]
    exact le_mul_of_one_le_left (by linarith) (by linarith)
  · rw [before, core_of_isNeutral neutral, one_mul]
  · rw [before]
    exact mul_le_mul_of_nonneg_right heavy (by linarith)

theorem productFits_invariant (agree : kernel.AgreeBelow other limit 4) :
    TermsInvariant kernel other .multiplicative (ProductFits bound limit negative) where
  perm fits upOrder downOrder := by
    refine fits.of_le (product_perm upOrder downOrder).ge (product_perm upOrder downOrder).ge ?_
    intro empty
    subst empty
    exact .inl upOrder.eq_nil
  join fits same :=
    fits.merge agree (.inl rfl) same (fun _ => by simp [mul_assoc]) (fun _ _ => product_cons) nofun
  joinDown fits same :=
    fits.merge agree (.inl rfl) same (fun _ => by simp [mul_assoc]) (fun _ _ => product_consDown)
      fun _ empty => empty
  cancel fits same :=
    fits.merge agree (.inr rfl) same (fun _ => by rw [product_cons, product_consDown, mul_assoc])
      (fun _ _ => product_cons) nofun
  flip {term _ _} fits := by
    refine Traced.Ensures.mono (flipped_light .multiplicative term) fun _ holds inverse found => ?_
    have ⟨light, view⟩ := holds inverse found
    exact fits.lighten (fun _ => product_cons) (fun _ => product_consDown) light (view rfl)
  flipDown {term _ _} fits := by
    refine Traced.Ensures.mono (flipped_light .multiplicative term) fun _ holds inverse found => ?_
    have ⟨light, view⟩ := holds inverse found
    exact fits.lighten (fun _ => product_consDown) (fun _ => product_cons) light (view rfl)
  drop fits neutral := fits.drop (fun _ => product_cons) neutral
  dropDown fits neutral := fits.drop (fun _ => product_consDown) neutral

/-- The factors of a tree, with room for a one if none is in the numerator. -/
structure IsProductOf (weight limit : ℚ) (added : Terms) : Prop where
  total : product Expr.weight added.up added.down ≤ weight
  bare : added.up = [] → 3 / 2 * product Expr.weight added.up added.down ≤ weight
  shares : product share added.up added.down ≤ limit

namespace IsProductOf

variable {weight otherWeight otherLimit : ℚ} {added others : Terms}

theorem single (term : Expr) : IsProductOf term.weight (share term) ⟨[term], []⟩ :=
  ⟨by simp, nofun, by simp⟩

/-- The factors of two operands, where those of the second may have changed sides. -/
theorem mul (isLeft : IsProductOf weight limit added)
    (isRight : IsProductOf otherWeight otherLimit others) {up down : List Expr}
    (sides : ∀ measure, product measure up down = product measure others.up others.down) :
    IsProductOf (weight * otherWeight) (limit * otherLimit)
      ⟨added.up ++ up, added.down ++ down⟩ := by
  have leftLeast := one_le_product one_le_weight added.up added.down
  have rightLeast := one_le_product one_le_weight others.up others.down
  have shareLeast := one_le_product one_le_share others.up others.down
  have leftShareLeast := one_le_product one_le_share added.up added.down
  have total := isLeft.total
  have shares := isLeft.shares
  refine ⟨?_, fun empty => ?_, ?_⟩
  · rw [product_append, sides]
    exact mul_le_mul total isRight.total (by linarith) (by linarith)
  · rw [product_append, sides, ← mul_assoc]
    have bare := isLeft.bare (List.append_eq_nil_iff.mp empty).1
    exact mul_le_mul bare isRight.total (by linarith) (by linarith)
  · rw [product_append, sides]
    exact mul_le_mul shares isRight.shares (by linarith) (by linarith)

theorem mono (isProduct : IsProductOf weight limit added) (light : limit ≤ otherLimit) :
    IsProductOf weight otherLimit added :=
  { isProduct with shares := isProduct.shares.trans light }

end IsProductOf

theorem share_mul_le (left right : Expr) :
    share left * share right ≤ left.weight * right.weight := by
  have leftLeast := one_le_share left
  have rightLeast := one_le_share right
  exact mul_le_mul (share_le_weight left) (share_le_weight right) (by linarith)
    left.weight_pos.le

theorem fillsProduct_weight : FillsProduct (fun _ => True) fun tree =>
    IsProductOf tree.weight (share tree) where
  single := .single
  mul {left right _ _} _ isLeft isRight :=
    (isLeft.mul isRight fun _ => rfl).mono (share_mul_le left right)
  div {left right _ _} _ isLeft isRight :=
    (isLeft.mul isRight fun _ => product_comm _ _).mono (share_mul_le left right)
  pow {base exponent} inner mark isNegative := by
    have whole : share (.arith .pow base (.number exponent inner) mark) =
      base.weight * exponent.weight := rfl
    refine (reciprocalPower_light isNegative).mono fun flipped light => ?_
    have positive := flipped.weight_pos
    refine ⟨?_, fun _ => ?_, ?_⟩
    · rw [product_consDown, product_nil, mul_one, Expr.weight_pow, Expr.exponentWeight_number]
      linarith
    · rw [product_consDown, product_nil, mul_one, Expr.weight_pow, Expr.exponentWeight_number]
      linarith
    · rw [product_consDown, product_nil, mul_one, whole]
      linarith [share_le_weight flipped]

theorem fillMultiplicative_appends (tree : Expr) (terms : Terms) :
    (fillMultiplicative tree terms).Ensures (fun _ => True)
      (Appends terms (IsProductOf tree.weight (share tree))) :=
  fillsProduct_weight.appends tree terms

/-- Taking a sign off a factor takes its weight off. -/
theorem withoutSign_light (factor : Expr) :
    (withoutSign factor).Ensures (fun _ => True) (3 / 2 * ·.weight ≤ factor.weight) := by
  unfold withoutSign
  split
  · exact .pure (le_refl _)
  · split
    · refine .lift ((negateNumber_light ‹_›).mono fun positive light => ?_)
      rw [Expr.weight_number]
      linarith
    · exact .failure
  · exact .failure

/-- Of a number, only the sign is left. -/
theorem withoutSign_core (factor : Expr) :
    (withoutSign factor).Ensures (fun _ => True) (3 / 2 * core · ≤ share factor) := by
  unfold withoutSign
  split
  · rename_i operand mark
    have whole : share (.unary .neg operand mark) = 3 / 2 * operand.weight := rfl
    refine .pure ?_
    rw [whole]
    linarith [core_le_weight operand]
  · split
    · rename_i value mark isNegative
      have partly : share (.number value mark) = 2 / 3 * value.weight := rfl
      refine .lift (negateNumber_isResult.mono ?_)
      rintro _ ⟨negated, mark, rfl, _⟩
      have one : core (.number negated mark) = 1 := rfl
      rw [partly, one, Number.weight_of_isNegative isNegative]
      norm_num
    · exact .failure
  · exact .failure

/-- Each sign that is taken off factors makes up for the one that is kept. -/
theorem extractSigns_light {inner outer : Expr → ℚ} (least : ∀ factor, 1 ≤ inner factor)
    (kept : ∀ factor, inner factor ≤ outer factor)
    (taken : ∀ factor, (withoutSign factor).Ensures (fun _ => True)
      (3 / 2 * inner · ≤ outer factor)) (factors : List Expr) :
    (extractSigns factors).Ensures (fun _ => True) fun extracted =>
      product inner extracted.1 [] * signWeight extracted.2 ≤ product outer factors [] := by
  induction factors with
  | nil => exact .pure (by simp [signWeight])
  | cons factor factors ih =>
      unfold extractSigns
      refine Rule.Ensures.run_match (taken factor) ?_ ?_
      · intro positive light
        refine .bind ih ?_
        rintro ⟨rest, odd⟩ holds
        refine .pure ?_
        have restLeast := one_le_product least rest []
        have first := least positive
        have sign := one_le_signWeight odd
        rw [product_cons, product_cons]
        calc inner positive * product inner rest [] * signWeight (!odd)
            ≤ inner positive * product inner rest [] * (3 / 2 * signWeight odd) :=
              mul_le_mul_of_nonneg_left (signWeight_not_le odd) (by positivity)
          _ = 3 / 2 * inner positive * (product inner rest [] * signWeight odd) := by
              rw [mul_mul_mul_comm, mul_comm (inner positive)]
          _ ≤ outer factor * product outer factors [] :=
              mul_le_mul light holds (by positivity) (by linarith)
      · refine .bind ih ?_
        rintro ⟨rest, odd⟩ holds
        refine .pure ?_
        have restLeast := one_le_product least rest []
        have first := least factor
        have sign := one_le_signWeight odd
        rw [product_cons, product_cons, mul_assoc]
        exact mul_le_mul (kept factor) holds (by positivity) (by linarith [kept factor])

theorem extractSigns_length (factors : List Expr) :
    (extractSigns factors).Ensures (fun _ => True) (·.1.length = factors.length) := by
  induction factors with
  | nil => exact .pure rfl
  | cons factor factors ih =>
      unfold extractSigns
      refine Rule.Ensures.run_match (withoutSign_light factor) (fun positive _ => ?_) ?_
      · exact .bind ih fun extracted length => .pure (congrArg (· + 1) length)
      · exact .bind ih fun extracted length => .pure (congrArg (· + 1) length)

theorem product_split (measure : Expr → ℚ) (up down : List Expr) :
    product measure up down = product measure up [] * product measure down [] := by
  simp [product]

/-- The signs of the numerator and of the denominator as one. -/
theorem signs_join {inner outer : Expr → ℚ} {upOdd downOdd : Bool}
    (least : ∀ factor, 1 ≤ inner factor)
    (upLight : product inner up [] * signWeight upOdd ≤ product outer ups [])
    (downLight : product inner down [] * signWeight downOdd ≤ product outer downs []) :
    product inner up down * signWeight (upOdd != downOdd) ≤ product outer ups downs := by
  have upLeast := one_le_product least up []
  have downLeast := one_le_product least down []
  have upSign := one_le_signWeight upOdd
  have downSign := one_le_signWeight downOdd
  rw [product_split inner, product_split outer]
  calc product inner up [] * product inner down [] * signWeight (upOdd != downOdd)
      ≤ product inner up [] * product inner down [] * (signWeight upOdd * signWeight downOdd) :=
        mul_le_mul_of_nonneg_left (signWeight_bne_le upOdd downOdd) (by positivity)
    _ = product inner up [] * signWeight upOdd * (product inner down [] * signWeight downOdd) :=
        mul_mul_mul_comm _ _ _ _
    _ ≤ product outer ups [] * product outer downs [] :=
        mul_le_mul upLight downLight (by positivity) (le_trans (by positivity) upLight)

theorem pullSigns_fits {terms : Terms} (isProduct : IsProductOf bound limit terms) :
    (pullSigns .multiplicative terms).Ensures (fun _ => True) fun pulled =>
      ProductFits bound limit pulled.2 pulled.1.up pulled.1.down := by
  have weights := extractSigns_light one_le_weight (fun _ => le_refl _) withoutSign_light
  have cores := extractSigns_light one_le_core core_le_share withoutSign_core
  refine .bind (((weights terms.up).and (cores terms.up)).and (extractSigns_length terms.up)) ?_
  rintro ⟨up, upOdd⟩ ⟨⟨upWeights, upCores⟩, upLength⟩
  refine .bind ((weights terms.down).and (cores terms.down)) ?_
  rintro ⟨down, downOdd⟩ ⟨downWeights, downCores⟩
  have light := signs_join one_le_weight upWeights downWeights
  refine .pure ⟨light.trans isProduct.total, fun empty => ?_, ?_⟩
  · have wasEmpty : terms.up = [] := by
      have none : up = [] := empty
      rw [none] at upLength
      exact List.length_eq_zero_iff.mp upLength.symm
    linarith [isProduct.bare wasEmpty]
  · exact (signs_join one_le_core upCores downCores).trans isProduct.shares

theorem foldReversed?_mul_weight (list : List Expr) :
    (foldReversed? .mul list).Ensures fun result =>
      (∀ tree, result = some tree → tree.weight = product Expr.weight list []) ∧
        (result = none → list = []) := by
  refine foldReversed?_ensures fun last order => ?_
  rw [product_perm order (.refl []), product_cons]
  refine foldBack_ensures (fun list tree => tree.weight = last.weight * product Expr.weight list [])
    (by simp) fun holds mark => ?_
  rw [Expr.weight_mul, holds, product_cons, mul_assoc, mul_comm _ (Expr.weight _)]

/-- The sign on the factor that is read first costs no more than the weight that was
set aside for it. -/
theorem signedNumerator_alike (agree : kernel.AgreeBelow other limit 4)
    (numbers : kernel.AgreeBelow other bound 1) (fits : ProductFits bound limit negative up down) :
    (signedNumerator kernel negative up).Alike (signedNumerator other negative up) fun numerator =>
      product Expr.weight numerator down ≤ bound ∧
        (numerator = [] → 3 / 2 * product Expr.weight numerator down ≤ bound) := by
  unfold signedNumerator
  cases negative with
  | false =>
      have total := fits.total
      have bare := fits.bare
      simp only [signWeight, Bool.false_eq_true, if_false, mul_one] at total bare
      exact .pure ⟨total, bare⟩
  | true =>
      have total := fits.total
      have calls := fits.calls
      simp only [signWeight, if_true] at total calls
      rw [if_pos rfl, if_pos rfl]
      cases found : up.getLast? with
      | some last =>
          have order := perm_getLast_cons found
          have weights := one_le_product one_le_weight up.dropLast down
          have cores := one_le_product one_le_core up.dropLast down
          have positive := last.weight_pos
          rw [product_perm order (.refl down), product_cons] at total calls
          have negated : (kernel.negate last).Alike (other.negate last)
              (·.weight ≤ 3 / 2 * last.weight) := by
            cases view : last.toNumber? with
            | some value =>
                refine numbers.negate (.inr ⟨?_, by simp [Call.rank, view]⟩) (le_refl _)
                rw [Call.node, Expr.weight_neg]
                nlinarith
            | none =>
                rw [core_of_toNumber? view] at calls
                refine agree.negate (.inr ⟨?_, by simp [Call.rank, view]⟩) (le_refl _)
                rw [Call.node, Expr.weight_neg]
                nlinarith
          refine .bind negated fun negative light => .pure ⟨?_, fun empty => ?_⟩
          · have moved := List.perm_append_singleton negative up.dropLast
            rw [product_perm moved (.refl down), product_cons]
            nlinarith
          · simp at empty
      | none =>
          obtain rfl := List.getLast?_eq_none_iff.mp found
          have bare := fits.bare rfl
          have minusOne : (Expr.int (-1)).weight = 9 / 4 := rfl
          simp only [signWeight, if_true] at bare
          refine .pure ⟨?_, fun empty => absurd empty (List.cons_ne_nil _ _)⟩
          rw [product_cons, minusOne]
          linarith

theorem foldMultiplicative_alike (agree : kernel.AgreeBelow other limit 4)
    (numbers : kernel.AgreeBelow other bound 1) {terms : Terms}
    (fits : ProductFits bound limit negative terms.up terms.down) :
    (foldMultiplicative kernel negative terms).Alike (foldMultiplicative other negative terms)
      (·.weight ≤ bound) := by
  refine .bind (signedNumerator_alike agree numbers fits) fun numerator holds =>
    .bind (.refl (.ofMarking (foldReversed?_mul_weight numerator))) ?_
  rintro folded ⟨found, missing⟩
  have top : (folded.getD Chain.multiplicative.neutral).weight *
      product Expr.weight terms.down [] ≤ bound := by
    rw [product_split] at holds
    cases folded with
    | some tree =>
        rw [Option.getD_some, found tree rfl]
        exact holds.1
    | none =>
        obtain rfl := missing rfl
        have room := holds.2 rfl
        rw [product_nil, one_mul] at room
        exact room
  refine .bind (.refl (.ofMarking (foldReversed?_mul_weight terms.down))) ?_
  rintro (_ | bottom) ⟨bottomFound, bottomMissing⟩
  · rw [bottomMissing rfl, product_nil, mul_one] at top
    exact .pure top
  · rw [← bottomFound bottom rfl] at top
    exact .make fun mark => top

theorem collect_multiplicative_alike (agree : kernel.AgreeBelow other limit 4)
    (numbers : kernel.AgreeBelow other bound 1) {terms : Terms}
    (isProduct : IsProductOf bound limit terms) (least : 3 / 2 ≤ bound) :
    (collect kernel .multiplicative terms).Alike (collect other .multiplicative terms)
      (·.weight ≤ bound) := by
  refine .bind .step fun _ _ => .bind (.refl (pullSigns_fits isProduct)) ?_
  rintro ⟨unsigned, negative⟩ fits
  have invariant : TermsInvariant kernel other .multiplicative (ProductFits bound limit negative) :=
    productFits_invariant agree
  refine .bind (invariant.settle_alike fits) fun settled settledFits => ?_
  split
  · exact .pure least
  · exact foldMultiplicative_alike agree numbers (invariant.filter_isNeutral settledFits)

end SymbolicAlgebra
