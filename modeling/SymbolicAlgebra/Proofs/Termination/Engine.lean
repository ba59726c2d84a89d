import Mathlib.Algebra.Order.Floor.Semiring
import Mathlib.Data.Rat.Floor
import SymbolicAlgebra.Proofs.Termination.Products
import SymbolicAlgebra.Proofs.Termination.Sums

/-!
# Termination of the arithmetic engine

An engine answers a call by calls below it, so the answer of a tower of engines
depends only on as many of its levels as there are calls below.  Their number is
bounded by the sizes of the operands.  From that depth on it does not matter how
deep the tower is, nor what it stands on: the engine at the bottom is never called.
-/

namespace SymbolicAlgebra

variable {kernel other : Kernel} {left right operand : Expr}

/-! ## Operators -/

theorem withScratch_alike {Result : Type} {compute otherwise : Terms → Traced (Result × Terms)}
    {condition : Result → Prop}
    (alike : (compute .empty).Alike (otherwise .empty) (condition ·.1)) :
    (withScratch compute).Alike (withScratch otherwise) condition := by
  have taken : takeScratch.Alike takeScratch (· = []) := .bind .step fun _ _ => .pure rfl
  refine .bind taken fun up upEmpty => .bind taken fun down downEmpty => ?_
  subst upEmpty downEmpty
  exact .bind alike fun _ holds => .bind .step fun _ _ => .bind .step fun _ _ => .pure holds

/-- Terms that are filled alike, and then collected or built alike. -/
theorem collectFilled_alike {chain : Chain} {gather : Terms → Traced Terms} {node : Expr}
    {gathered : Terms → Prop} {condition : Expr → Prop}
    (fills : (gather .empty).Ensures (fun _ => True) gathered)
    (collects : ∀ terms, gathered terms →
      chain.shouldCollect terms.up.length terms.down.length = true →
        (collect kernel chain terms).Alike (collect other chain terms) condition)
    (builds : Traced.Alike (liftM (Expr.make node)) (liftM (Expr.make node)) condition) :
    (collectFilled kernel chain gather node).Alike (collectFilled other chain gather node)
      condition := by
  refine withScratch_alike (.bind (.refl fills) fun terms holds => ?_)
  split
  · next enough => exact .bind (collects terms holds enough) fun _ holds => .pure holds
  · exact .bind builds fun _ holds => .pure holds

theorem fillOperands_add (left right : Expr) :
    (fillOperands .additive .add left right .empty).Ensures (fun _ => True)
      (IsSumOf (Expr.arith .add left right).weight) :=
  (fill_appends (fillAdditive_appends left .empty) (fillAdditive_appends right)
    fun isLeft isRight => isLeft.add isRight .initial).mono fun _ => Appends.of_empty

theorem fillOperands_sub (left right : Expr) :
    (fillOperands .additive .sub left right .empty).Ensures (fun _ => True)
      (IsSumOf (Expr.arith .sub left right).weight) :=
  (fill_appendsInverse (fillAdditive_appends left .empty)
    (fun terms => fillAdditive_appends right terms.swap)
    fun isLeft isRight => isLeft.sub isRight .initial).mono fun _ => Appends.of_empty

theorem fillOperands_mul (left right : Expr) :
    (fillOperands .multiplicative .mul left right .empty).Ensures (fun _ => True)
      (IsProductOf (left.weight * right.weight) (share left * share right)) :=
  (fill_appends (fillMultiplicative_appends left .empty) (fillMultiplicative_appends right)
    fun isLeft isRight => isLeft.mul isRight fun _ => rfl).mono fun _ => Appends.of_empty

theorem fillOperands_div (left right : Expr) :
    (fillOperands .multiplicative .div left right .empty).Ensures (fun _ => True)
      (IsProductOf (left.weight * right.weight) (share left * share right)) :=
  (fill_appendsInverse (fillMultiplicative_appends left .empty)
    (fun terms => fillMultiplicative_appends right terms.swap)
    fun isLeft isRight => isLeft.mul isRight fun _ => product_comm _ _).mono
      fun _ => Appends.of_empty

/-- What collecting a product calls on is below the product: a number that leads it
is no factor that calls are made for. -/
theorem mul_limit_agree
    (agree : kernel.AgreeBelow other (left.weight * right.weight)
      (Call.binary .mul left right).rank) :
    kernel.AgreeBelow other (share left * share right) 4 := by
  cases view : left.asNumber? with
  | none =>
      refine agree.restrict (share_mul_le left right) ?_
      simp [Call.rank, view]
  | some value =>
      obtain ⟨mark, rfl⟩ := Expr.eq_of_asNumber? view
      apply agree.strict
      have leading : share (.number value mark) = 2 / 3 * value.weight := rfl
      rw [leading, Expr.weight_number]
      nlinarith [share_le_weight right, right.le_weight, value.le_weight]

theorem Call.one_le_rank_mul : 1 ≤ (Call.binary .mul left right).rank := by
  simp only [Call.rank]
  split
  · split <;> omega
  · omega

theorem collectOrBuild_alike {op : ArithOp}
    (agree : kernel.AgreeBelow other (Expr.arith op left right).weight
      (Call.binary op left right).rank) :
    (collectOrBuild kernel op left right).Alike (collectOrBuild other op left right)
      (·.weight ≤ (Expr.arith op left right).weight) := by
  have least : 3 / 2 ≤ (Expr.arith op left right).weight := Expr.le_weight _
  have plain : Traced.Alike (liftM (Expr.make (.arith op left right)))
      (liftM (Expr.make (.arith op left right)))
      (·.weight ≤ (Expr.arith op left right).weight) :=
    .make fun mark => (Expr.weight_withMark mark).le
  cases op with
  | add =>
      exact collectFilled_alike (fillOperands_add left right)
        (fun terms isSum _ => collect_additive_alike agree isSum.fits least) plain
  | sub =>
      exact collectFilled_alike (fillOperands_sub left right)
        (fun terms isSum _ => collect_additive_alike agree isSum.fits least) plain
  | mul =>
      have numbers := agree.restrict (le_refl _) Call.one_le_rank_mul
      refine collectFilled_alike (fillOperands_mul left right) (fun terms isProduct _ => ?_) plain
      exact collect_multiplicative_alike (mul_limit_agree agree) numbers isProduct least
  | div =>
      have calls := agree.restrict (share_mul_le left right) (le_refl 4)
      have numbers := agree.restrict (le_refl _) (by decide : 1 ≤ 4)
      refine collectFilled_alike (fillOperands_div left right) (fun terms isProduct _ => ?_) plain
      exact collect_multiplicative_alike calls numbers isProduct least
  | pow => exact plain

theorem applyBinary_light {op : ArithOp}
    (agree : kernel.AgreeBelow other (Expr.arith op left right).weight
      (Call.binary op left right).rank) :
    (applyBinary kernel op left right).Alike (applyBinary other op left right)
      (·.weight ≤ (Expr.arith op left right).weight) :=
  Rule.Alike.run_match (combine_alike agree)
    (fun _ light => .pure (light.trans op.merged_le_weight)) (collectOrBuild_alike agree)

theorem applyBinary_isResult (kernel : Kernel) {op : ArithOp} {x y : Number} {inner outer : Mark} :
    (applyBinary kernel op (.number x inner) (.number y outer)).Ensures (fun _ => True)
      (IsResult (op.onNumbers x y)) := by
  have combined : (combine kernel op (.number x inner) (.number y outer)).run.Alike
      (combine kernel op (.number x inner) (.number y outer)).run
      fun result => ∃ tree, result = some tree ∧ IsResult (op.onNumbers x y) tree :=
    combine_isResult rfl rfl
  refine .bind combined.ensures ?_
  rintro _ ⟨result, rfl, isResult⟩
  exact .pure isResult

theorem negateByForm_alike (agree : kernel.AgreeBelow other (3 / 2 * operand.weight) 3) :
    (negateByForm kernel operand).Alike (negateByForm other operand)
      (·.weight ≤ 3 / 2 * operand.weight) := by
  unfold negateByForm
  split
  · rename_i inner mark
    exact .pure (by rw [Expr.weight_neg]; linarith [inner.weight_pos])
  · rename_i left right mark
    have leftBound := left.le_weight
    have rightBound := right.le_weight
    rw [Expr.weight_sub] at agree ⊢
    exact .lift (agree.binary (by rw [Expr.weight_sub]; linarith)
      (by rw [Expr.weight_sub]; linarith))
  · rename_i left right mark
    rw [Expr.weight_mul] at agree ⊢
    split
    · rename_i coefficient view
      obtain ⟨_, rfl⟩ := Expr.eq_of_asNumber? view
      refine .bind (.lift (.refl negateNumber_isResult)) fun flipped isResult => .lift ?_
      obtain ⟨value, _, rfl, _⟩ := isResult
      exact agree.below (.binary .mul _ _) (signInCoefficient_below fun _ => by decide)
    · rename_i coefficient _ view
      obtain ⟨_, rfl⟩ := Expr.eq_of_asNumber? view
      rw [mul_comm left.weight] at agree ⊢
      refine .bind (.lift (.refl negateNumber_isResult)) fun flipped isResult => .lift ?_
      obtain ⟨value, _, rfl, _⟩ := isResult
      exact agree.below (.binary .mul _ _) (signInCoefficient_below fun _ => by decide)
    · exact .failure
  · exact .failure

theorem Chain.shouldCollect_of_single {up down : Nat} (single : up + down = 1) :
    Chain.additive.shouldCollect up down = false := by
  have alone : up = 0 ∧ down = 1 ∨ up = 1 ∧ down = 0 := by omega
  rcases alone with ⟨rfl, rfl⟩ | ⟨rfl, rfl⟩ <;> rfl

theorem negateTerms_alike (agree : kernel.AgreeBelow other (3 / 2 * operand.weight) 3) :
    (negateTerms kernel operand).Alike (negateTerms other operand)
      (·.weight ≤ 3 / 2 * operand.weight) := by
  have operandBound := operand.le_weight
  have filled : Traced.Ensures (fun _ => True)
      (do return (← fillAdditive operand Terms.empty.swap).swap)
      fun terms => IsSumOf operand.weight terms.swap :=
    .bind (fillAdditive_appends operand .empty) fun _ appended => .pure appended.of_empty
  refine collectFilled_alike filled (fun terms isSum several => ?_) (.make fun mark => le_refl _)
  rcases isSum.margin with single | margin
  · -- A single term is not collected.
    have alone : terms.up.length + terms.down.length = 1 := (Nat.add_comm _ _).trans single
    rw [Chain.shouldCollect_of_single alone] at several
    contradiction
  · have calls : kernel.AgreeBelow other (3 / 2 * operand.weight - 1 / 4) 4 :=
      agree.strict (by linarith)
    have fits : SumFits (3 / 2 * operand.weight - 1 / 4) terms.up terms.down :=
      .of_le (by change spread terms.swap.down terms.swap.up ≤ _; linarith)
    exact (collect_additive_alike calls fits (by linarith)).mono fun _ light => by linarith

theorem applyNegation_light
    (agree : kernel.AgreeBelow other (3 / 2 * operand.weight) (Call.negate operand).rank) :
    (applyNegation kernel operand).Alike (applyNegation other operand)
      (·.weight ≤ 3 / 2 * operand.weight) := by
  have operandBound := operand.le_weight
  unfold applyNegation
  split
  · exact .pure (by linarith)
  split
  · exact .refl (negateNumber_isResult.mono fun _ isResult => by linarith [isResult.weight_le])
  · rename_i items _ view
    obtain ⟨mark, rfl⟩ := Expr.eq_of_asArray? view
    rw [weight_array_eq] at agree ⊢
    exact scaled_alike (fun item => .negate item) agree (by norm_num) (fun item => rfl) (le_refl _)
  · rename_i view _
    split
    · rename_i textual
      rw [Expr.weight_of_isTextual textual]
      exact .make fun mark => (by norm_num : (6 : ℚ) ≤ 3 / 2 * 6)
    · have ranked : (Call.negate operand).rank = 3 := by simp [Call.rank, view]
      rw [ranked] at agree
      refine Rule.Alike.run_match (.orElse (negateByForm_alike agree) ?_)
        (fun _ light => .pure light) (negateTerms_alike agree)
      exact (negated_alike agree (by linarith)).mono fun _ light => by linarith

theorem applyNegation_isResult (kernel : Kernel) {x : Number} {mark : Mark} :
    (applyNegation kernel (.number x mark)).Ensures (fun _ => True) (IsResult x.neg) := by
  unfold applyNegation
  split
  · rename_i undefined
    exact .pure ⟨x, mark, rfl, .inr undefined⟩
  · exact negateNumber_isResult

/-! ## Towers of engines -/

namespace Kernel

theorem above_answer_light {call : Call}
    (agree : kernel.AgreeBelow other call.node.weight call.rank) :
    (kernel.above.answer call).Alike (other.above.answer call) (·.weight ≤ call.node.weight) := by
  cases call with
  | binary op left right => exact applyBinary_light agree
  | negate operand => exact applyNegation_light agree

theorem above_answer_isResult (kernel : Kernel) {call : Call} {number : Number}
    (asked : call.number? = some number) :
    (kernel.above.answer call).Ensures (fun _ => True) (IsResult number) := by
  unfold Call.number? at asked
  split at asked
  · obtain rfl := Option.some.inj asked
    exact applyBinary_isResult kernel
  · obtain rfl := Option.some.inj asked
    exact applyNegation_isResult kernel
  · contradiction

/-- One level of a tower answers a call alike when the levels below agree on all
calls below it. -/
theorem above_answer_alike {call : Call}
    (agree : kernel.AgreeBelow other call.node.weight call.rank) :
    (kernel.above.answer call).Alike (other.above.answer call) call.Fits := by
  have light := above_answer_light agree
  refine ⟨light.same, fun start steps => ⟨light.ensures start steps, fun number asked => ?_⟩⟩
  exact above_answer_isResult kernel asked start steps

end Kernel

namespace Call

theorem rank_lt (call : Call) : call.rank < 7 := by
  unfold rank
  repeat' split
  all_goals omega

/-- A number that decreases from a call to the calls below it. -/
def measure (call : Call) : Nat := 7 * ⌊4 * call.node.weight⌋₊ + call.rank

theorem Below.measure_lt {call caller : Call}
    (below : call.Below caller.node.weight caller.rank) : call.measure < caller.measure := by
  have ranked := call.rank_lt
  unfold measure
  rcases below with gap | ⟨light, lower⟩
  · have floors : ⌊4 * call.node.weight⌋₊ + 1 ≤ ⌊4 * caller.node.weight⌋₊ := by
      rw [← Nat.floor_add_one (by linarith [call.node.weight_pos])]
      exact Nat.floor_mono (by linarith)
    omega
  · have floors : ⌊4 * call.node.weight⌋₊ ≤ ⌊4 * caller.node.weight⌋₊ :=
      Nat.floor_mono (by linarith)
    omega

/-- The total size of the operands. -/
def size : Call → Nat
  | .binary _ left right => left.size + right.size
  | .negate operand => operand.size

theorem measure_lt_callDepth (call : Call) : call.measure < callDepth call.size := by
  have nodeSize : call.node.size = call.size + 1 := by
    cases call with
    | binary op left right => simp [node, size, Nat.add_assoc]
    | negate operand => simp [node, size]
  have bound := call.node.weight_le_pow_size
  rw [nodeSize] at bound
  have floor : ⌊4 * call.node.weight⌋₊ ≤ 4 * 6 ^ (call.size + 1) := by
    apply Nat.floor_le_of_le
    push_cast
    linarith
  have powers : 6 ^ call.size ≤ 8 ^ call.size := Nat.pow_le_pow_left (by decide) _
  have ranked := call.rank_lt
  have depth : callDepth call.size = 256 * 8 ^ call.size := by
    rw [callDepth, Nat.pow_eq, pow_add, pow_mul, mul_comm]
    norm_num
  have positive : 0 < 8 ^ call.size := by positivity
  rw [measure, depth]
  rw [pow_succ] at floor
  omega

end Call

namespace Kernel

/-- Towers of engines agree on all calls that are not too many for their height. -/
theorem iterate_above_alike {height : Nat} {call : Call} (enough : call.measure < height)
    (first second : Kernel) :
    ((above^[height] first).answer call).Alike ((above^[height] second).answer call) call.Fits := by
  induction height generalizing call with
  | zero => omega
  | succ height ih =>
      rw [Function.iterate_succ_apply', Function.iterate_succ_apply']
      apply above_answer_alike
      intro inner below
      have lower := below.measure_lt
      exact ih (by omega)

theorem ofDepth_eq_iterate (depth : Nat) : ofDepth depth = above^[depth] plain := by
  induction depth with
  | zero => rfl
  | succ depth ih =>
      rw [Function.iterate_succ_apply', ← ih]
      rfl

/-- From the depth that operators start from on, neither the height of a tower nor
what it stands on matters. -/
theorem iterate_above_answer {depth : Nat} (call : Call) (deep : callDepth call.size ≤ depth)
    (bottom : Kernel) :
    (above^[depth] bottom).answer call = (ofDepth (callDepth call.size)).answer call := by
  obtain ⟨extra, rfl⟩ := Nat.exists_eq_add_of_le deep
  rw [Function.iterate_add_apply, ofDepth_eq_iterate]
  exact (iterate_above_alike call.measure_lt_callDepth _ _).same

end Kernel

namespace Expr

/-- An operator applied to two trees by the given engine. -/
def calculateBy (kernel : Kernel) (op : Operator) (left right : Expr) : Traced Expr :=
  match op with
  | .unary .neg => kernel.negate left
  | .unary .not => left.negation
  | .arith op => kernel.binary op left right
  | .relation comparison => compareBy comparison left right
  | .connective link => connect link left right

/-- The arithmetic engine terminates.  Every operator on every two trees comes to its
result, by the same steps, in fewer levels of engines than the bound: a tower of any
greater height may stand on any engine at all, which is never called. -/
theorem calculate_terminates (op : Operator) (left right : Expr) (depth : Nat)
    (deep : callDepth (left.size + right.size) ≤ depth) (bottom : Kernel) :
    calculateBy (Kernel.above^[depth] bottom) op left right = calculate op left right := by
  cases op with
  | unary op =>
      cases op with
      | neg =>
          have shallower : callDepth left.size ≤ callDepth (left.size + right.size) :=
            Nat.pow_le_pow_right (by decide) (by omega)
          exact Kernel.iterate_above_answer (.negate left) (shallower.trans deep) bottom
      | not => rfl
  | arith op => exact Kernel.iterate_above_answer (.binary op left right) deep bottom
  | relation comparison => rfl
  | connective link => rfl

/-- A sum whose negated addend turns it into a difference, over an engine that would
only answer with a name. -/
theorem calculate_terminates_on_signed_sum :
    let left : Expr := .arith .sub (.var "x") (.int 2)
    let right : Expr := .unary .neg (.var "x")
    let bottom : Kernel := ⟨fun _ _ _ => pure (.var "unused"), fun _ => pure (.var "unused")⟩
    callDepth (left.size + right.size) ≤ 2 ^ 30 ∧
      calculateBy (Kernel.above^[2 ^ 30] bottom) (.arith .add) left right =
        calculate (.arith .add) left right := by
  have deep : callDepth ((Expr.arith .sub (.var "x") (.int 2)).size +
      (Expr.unary .neg (.var "x")).size) ≤ 2 ^ 30 := by decide
  exact ⟨deep, calculate_terminates _ _ _ _ deep _⟩

end Expr

end SymbolicAlgebra
