import SymbolicAlgebra.Proofs.Composition
import SymbolicAlgebra.Proofs.Termination.Engine

/-!
# The recursion of differentiation

The rule for a general power takes the derivative of the product of the exponent and
the logarithm of the base, which the engine has simplified and which may be larger
than the power.  It is lighter, though: a logarithm weighs at most twice its argument,
and an exponent that is no number counts three times in a power.  All other
derivatives are taken of children, which are lighter as well.

So each derivative is asked for at trees that are lighter by a margin, and the depth
that differentiation starts from is never used up.
-/

namespace SymbolicAlgebra

/-! ## Logarithms -/

theorem ln_onNumber_light (number : Number) :
    (UnaryFunction.ln.onNumber number).Ensures (·.weight ≤ 9 / 4) := by
  have computed : UnaryFunction.ln.atNumber? number = some number.ln := by
    simp [UnaryFunction.atNumber?, UnaryFunction.atZero?]
  unfold UnaryFunction.onNumber
  rw [computed]
  exact .make fun mark => Number.weight_le _

theorem ln_onSymbolic_light (argument : Expr) :
    (UnaryFunction.ln.onSymbolic argument).Ensures (·.weight ≤ 2 * argument.weight) := by
  unfold UnaryFunction.onSymbolic
  split
  · contradiction
  · rename_i inner mark _
    refine .pure ?_
    rw [Expr.weight_call]
    linarith [inner.weight_pos]
  · contradiction
  · contradiction
  · contradiction
  · exact .make fun mark => le_refl _

theorem mapFunction_ln_light (tree : Expr) :
    (mapFunction .ln tree).Ensures (·.weight ≤ 2 * tree.weight) := by
  have scalar {argument : Expr} (notArray : argument.asArray? = none) :
      (mapFunction .ln argument).Ensures (·.weight ≤ 2 * argument.weight) := by
    have argumentBound := argument.le_weight
    unfold mapFunction
    split
    · cases notArray
    split
    · exact (ln_onNumber_light _).mono fun _ light => by linarith
    rename_i notNumber
    split
    · rename_i constant
      have heavy : argument.weight = 6 := by
        cases argument <;> first | rfl | (cases constant; done) | cases notNumber
      exact .make fun mark => (by linarith : (6 : ℚ) ≤ 2 * argument.weight)
    · exact ln_onSymbolic_light argument
  induction tree using Expr.induction_children with
  | leaf tree isLeaf =>
      refine scalar ?_
      cases tree with
      | array => cases isLeaf
      | _ => rfl
  | node tree inner ih =>
      cases tree with
      | array items mark =>
          have all : (mapFunctionAll .ln items).Ensures (load · ≤ 2 * load items) := by
            replace ih : ∀ item ∈ items, (mapFunction .ln item).Ensures
              (·.weight ≤ 2 * item.weight) := ih
            clear inner
            induction items with
            | nil => exact .pure (by simp [load])
            | cons item items itemsIH =>
                rw [List.forall_mem_cons] at ih
                refine .bind ih.1 fun result light => .bind (itemsIH ih.2) fun results rest =>
                  .pure ?_
                simp only [load, List.map_cons, List.sum_cons] at rest ⊢
                linarith
          refine .bind all fun results light => .make fun mark => ?_
          rw [Expr.weight_withMark, weight_array_eq, weight_array_eq]
          linarith
      | _ => exact scalar rfl

/-- The logarithm of a tree weighs at most twice as much. -/
theorem ln_apply_light (tree : Expr) :
    (UnaryFunction.ln.apply tree).Ensures (fun _ => True) (·.weight ≤ 2 * tree.weight) := by
  unfold UnaryFunction.apply
  split
  · exact .pure (by linarith [tree.weight_pos])
  · exact .ofMarking (mapFunction_ln_light tree)

namespace Expr

variable {tree left right : Expr} {name : String}

/-- The product of two trees weighs no more than its plain node. -/
theorem mul_light (left right : Expr) :
    (left.mul right).Ensures (fun _ => True) (·.weight ≤ left.weight * right.weight) := by
  have deep := (Call.binary .mul left right).measure_lt_callDepth
  rw [mul, arithmetic, Kernel.ofDepth_eq_iterate]
  exact (Kernel.iterate_above_alike deep .plain .plain).ensures.mono fun _ fits => fits.light

/-! ## One level -/

theorem weight_add_two_le_wholeWeight {weights : List ℚ} {weight : ℚ} (member : weight ∈ weights)
    (nonnegative : ∀ weight ∈ weights, 0 ≤ weight) : weight + 2 ≤ wholeWeight weights := by
  have summands : ∀ shifted ∈ weights.map (· + 2), (0 : ℚ) ≤ shifted := by
    intro shifted shiftedMember
    obtain ⟨weight, weightMember, rfl⟩ := List.mem_map.mp shiftedMember
    linarith [nonnegative weight weightMember]
  have least := List.single_le_sum summands _ (List.mem_map_of_mem member)
  rw [wholeWeight]
  linarith

theorem lt_nodeWeight (head : Head) (numericExponent : Bool) {weights : List ℚ} {weight : ℚ}
    (member : weight ∈ weights) (bounds : ∀ weight ∈ weights, 3 / 2 ≤ weight) :
    weight + 1 / 4 ≤ nodeWeight head numericExponent weights := by
  unfold nodeWeight
  split
  · have bound := bounds _ List.mem_cons_self
    rw [List.mem_singleton] at member
    linarith
  · have ⟨left, others⟩ := List.forall_mem_cons.mp bounds
    have right := others _ List.mem_cons_self
    rcases List.mem_pair.mp member with rfl | rfl <;> linarith
  · have ⟨left, others⟩ := List.forall_mem_cons.mp bounds
    have right := others _ List.mem_cons_self
    rcases List.mem_pair.mp member with rfl | rfl <;> linarith
  · have ⟨left, others⟩ := List.forall_mem_cons.mp bounds
    have right := others _ List.mem_cons_self
    rcases List.mem_pair.mp member with rfl | rfl <;> split <;> nlinarith
  · have ⟨left, others⟩ := List.forall_mem_cons.mp bounds
    have right := others _ List.mem_cons_self
    rcases List.mem_pair.mp member with rfl | rfl <;> nlinarith
  · have bound := bounds _ List.mem_cons_self
    rw [List.mem_singleton] at member
    linarith
  · have whole := weight_add_two_le_wholeWeight member fun weight member => by
      linarith [bounds weight member]
    linarith

/-- A child is lighter than its parent, by a margin. -/
theorem weight_child_lt {child : Expr} (member : child ∈ tree.children) :
    child.weight + 1 / 4 ≤ tree.weight := by
  rw [weight_node (isLeaf_of_mem_children member)]
  refine lt_nodeWeight _ _ (List.mem_map_of_mem member) fun weight weightMember => ?_
  obtain ⟨part, _, rfl⟩ := List.mem_map.mp weightMember
  exact part.le_weight

/-- The two recursions agree on all trees that are lighter by a margin than a bound. -/
def DeriveAlike (derive other : Expr → Traced Expr) (bound : ℚ) : Prop :=
  ∀ tree : Expr, tree.weight + 1 / 4 ≤ bound → (derive tree).Alike (other tree) fun _ => True

section Level

variable {derive other : Expr → Traced Expr} {mark : Mark}

theorem alike_self {Result : Type} (computation : Traced Result) :
    computation.Alike computation fun _ => True :=
  .refl fun _ _ => trivial

/-- What the rule for a general power differentiates is lighter than the power. -/
theorem power_exponent_light (notNumber : right.isNumber = false) {logarithm exponent : Expr}
    (logarithmLight : logarithm.weight ≤ 2 * left.weight)
    (exponentLight : exponent.weight ≤ right.weight * logarithm.weight) :
    exponent.weight + 1 / 4 ≤ (Expr.arith .pow left right mark).weight := by
  have leftBound := left.le_weight
  have rightBound := right.le_weight
  have product : 9 / 4 ≤ left.weight * right.weight := by nlinarith
  rw [weight_pow, exponentWeight, notNumber, if_neg Bool.false_ne_true]
  calc exponent.weight + 1 / 4 ≤ right.weight * (2 * left.weight) + 1 / 4 := by
        have := exponentLight.trans
          (mul_le_mul_of_nonneg_left logarithmLight right.weight_pos.le)
        linarith
    _ ≤ left.weight * (3 * right.weight) := by linarith

theorem differentiateArith_alike {op : ArithOp}
    (agree : DeriveAlike derive other (Expr.arith op left right mark).weight) :
    (differentiateArith derive name (.arith op left right mark) op left right).Alike
      (differentiateArith other name (.arith op left right mark) op left right)
      fun _ => True := by
  have first := agree left (weight_child_lt (by simp [children]))
  have second := agree right (weight_child_lt (by simp [children]))
  cases op with
  | add | sub => exact .bind first fun _ _ => .bind second fun _ _ => alike_self _
  | mul | div =>
      exact .bind first fun _ _ => .bind (alike_self _) fun _ _ => .bind second fun _ _ =>
        alike_self _
  | pow =>
      unfold differentiateArith
      dsimp only
      split
      · exact .bind (alike_self _) fun _ _ => .bind (alike_self _) fun _ _ =>
          .bind (alike_self _) fun _ _ => .bind first fun _ _ => alike_self _
      · rename_i occurs
        split
        · exact .bind second fun _ _ => alike_self _
        · have notNumber : right.isNumber = false := by
            cases right <;> first | rfl | exact absurd rfl occurs
          refine .bind (.refl (ln_apply_light left)) fun logarithm logarithmLight =>
            .bind (.refl (mul_light right logarithm)) fun exponent exponentLight => ?_
          exact .bind (agree exponent (power_exponent_light notNumber logarithmLight exponentLight))
            fun _ _ => alike_self _

/-- One level of differentiation asks only for derivatives of lighter trees. -/
theorem differentiateNode_alike (agree : DeriveAlike derive other tree.weight) :
    (differentiateNode derive name tree).Alike (differentiateNode other name tree)
      fun _ => True := by
  have child {part : Expr} (member : part ∈ tree.children) :
      (derive part).Alike (other part) fun _ => True := agree part (weight_child_lt member)
  have mentioned {node : Expr} {rule otherRule : Traced Expr}
      (alike : rule.Alike otherRule fun _ => True) :
      (if !node.containsVariable name then pure (.int 0) else rule).Alike
        (if !node.containsVariable name then pure (.int 0) else otherRule) fun _ => True := by
    split
    · exact alike_self _
    · exact alike
  cases tree with
  | array items mark =>
      exact .bind (.forEach fun item member => child member) fun _ _ => alike_self _
  | unary op operand mark =>
      cases op with
      | neg => exact mentioned (.bind (child (by simp [children])) fun _ _ => alike_self _)
      | not => exact alike_self _
  | arith op left right mark => exact mentioned (differentiateArith_alike agree)
  | call function argument mark =>
      exact mentioned (.bind (child (by simp [children])) fun _ _ => alike_self _)
  | call₂ function first second mark =>
      cases function with
      | max | min =>
          exact mentioned (.bind (child (by simp [children])) fun _ _ =>
            .bind (child (by simp [children])) fun _ _ => alike_self _)
      | diff | solve => exact alike_self _
  | conditional test consequence alternative mark =>
      exact .bind (child (by simp [children])) fun _ _ =>
        .bind (child (by simp [children])) fun _ _ => alike_self _
  | summation body index first last mark =>
      unfold differentiateNode
      dsimp only
      split
      · exact alike_self _
      · exact .bind (child (by simp [children])) fun _ _ => alike_self _
  | _ => exact alike_self _

end Level

/-! ## All levels -/

theorem differentiateTo_eq_iterate (depth : Nat) (name : String) :
    differentiateTo depth name =
      (differentiateNode · name)^[depth] fun _ => ofNumber Number.nan := by
  induction depth with
  | zero => rfl
  | succ depth ih =>
      rw [Function.iterate_succ_apply', ← ih]
      rfl

/-- Recursions of differentiation agree on all trees that are light for their depth,
whatever they stand on. -/
theorem iterate_differentiateNode_alike {depth : Nat} (enough : ⌊4 * tree.weight⌋₊ < depth)
    (first second : Expr → Traced Expr) :
    ((differentiateNode · name)^[depth] first tree).Alike
      ((differentiateNode · name)^[depth] second tree) fun _ => True := by
  induction depth generalizing tree with
  | zero => omega
  | succ depth ih =>
      rw [Function.iterate_succ_apply', Function.iterate_succ_apply']
      refine differentiateNode_alike fun part light => ih ?_
      have floors : ⌊4 * part.weight⌋₊ + 1 ≤ ⌊4 * tree.weight⌋₊ := by
        rw [← Nat.floor_add_one (by linarith [part.weight_pos])]
        exact Nat.floor_mono (by linarith)
      omega

theorem floor_weight_lt_depthFor (tree : Expr) : ⌊4 * tree.weight⌋₊ < depthFor tree.size := by
  have floor : ⌊4 * tree.weight⌋₊ ≤ 4 * 6 ^ tree.size := by
    apply Nat.floor_le_of_le
    push_cast
    linarith [tree.weight_le_pow_size]
  have powers : 6 ^ tree.size ≤ 8 ^ tree.size := Nat.pow_le_pow_left (by decide) _
  have depth : depthFor tree.size = 256 * 8 ^ tree.size := by
    rw [depthFor, Nat.pow_eq, pow_add, pow_mul, mul_comm]
    norm_num
  have positive : 0 < 8 ^ tree.size := by positivity
  omega

/-- Differentiation ends before it has used up its depth: the derivative is the same
for any greater depth, whatever would answer when that is used up. -/
theorem iterate_differentiateNode (tree : Expr) (name : String) {depth : Nat}
    (deep : depthFor tree.size ≤ depth) (bottom : Expr → Traced Expr) :
    (differentiateNode · name)^[depth] bottom tree = tree.differentiate name := by
  obtain ⟨extra, rfl⟩ := Nat.exists_eq_add_of_le deep
  rw [Function.iterate_add_apply, differentiate, differentiateTo_eq_iterate]
  exact (iterate_differentiateNode_alike tree.floor_weight_lt_depthFor _ _).same

end Expr

end SymbolicAlgebra
