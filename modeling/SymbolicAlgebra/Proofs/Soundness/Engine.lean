import SymbolicAlgebra.Arithmetic.Engine
import SymbolicAlgebra.Proofs.Soundness.Collection

/-!
# Soundness of the arithmetic engine

At every depth the engine keeps the values of operations: at depth zero because
it computes numbers and builds plain nodes, and at each further depth because
the rules and the collection of terms keep the values that the engine one below
keeps.  The depth itself does not matter.
-/

namespace SymbolicAlgebra

variable {K : Type} [CommRing K] [Algebra ℚ K] {reading : Reading K}

/-! ## Numbers -/

section Numbers

variable {allowed : Step → Prop} {kernel : Kernel} {op : ArithOp} {x y : Number}
  {inner outer : Mark}

theorem numericRule_succeeds (kept : ∀ number, ¬ allowed (.inexact number))
    (xExact : x.isExact = true) (yExact : y.isExact = true)
    (defined : op.isUndefinedAt x y = false) :
    (numericRule op (.number x inner) (.number y outer)).Succeeds allowed
      (IsExactLeaf (op.onNumbers x y)) := by
  unfold numericRule
  simp only [Expr.toNumber?, defined, Bool.false_eq_true, if_false]
  exact .lift (numeric_isExactLeaf kept (by simp [xExact, yExact]))

theorem combine_succeeds (kept : ∀ number, ¬ allowed (.inexact number))
    (xExact : x.isExact = true) (yExact : y.isExact = true)
    (defined : op.isUndefinedAt x y = false) :
    (combine kernel op (.number x inner) (.number y outer)).Succeeds allowed
      (IsExactLeaf (op.onNumbers x y)) := by
  refine .failure_orElse ?_ (.orElse (numericRule_succeeds kept xExact yExact defined))
  simp only [firstError?, Expr.isError_number xExact, Expr.isError_number yExact,
    Bool.false_eq_true, if_false]
  rfl

theorem Kernel.plain_computes (kept : ∀ number, ¬ allowed (.inexact number)) :
    Kernel.plain.Computes allowed where
  binary xExact yExact defined :=
    (numericRule_succeeds kept xExact yExact defined).run_match fun _ leaf => .pure leaf
  negate exact := numeric_isExactLeaf kept (by simp [exact])

theorem Kernel.above_computes (kept : ∀ number, ¬ allowed (.inexact number)) :
    kernel.above.Computes allowed where
  binary xExact yExact defined :=
    (combine_succeeds kept xExact yExact defined).run_match fun _ leaf => .pure leaf
  negate exact := by
    simp only [Kernel.above, applyNegation, Expr.isError_number exact, Bool.false_eq_true, if_false]
    exact numeric_isExactLeaf kept (by simp [exact])

end Numbers

/-! ## Operators -/

section Operators

variable {kernel : Kernel} {op : ArithOp} {left right operand : Expr} {value : K} {mark : Mark}

theorem takeScratch_ensures {allowed : Step → Prop} : takeScratch.Ensures allowed (· = []) :=
  .bind .step fun _ _ => .pure rfl

theorem withScratch_ensures {Result : Type} {allowed : Step → Prop}
    {compute : Terms → Traced (Result × Terms)} {condition : Result → Prop}
    (ensures : (compute .empty).Ensures allowed (condition ·.1)) :
    (withScratch compute).Ensures allowed condition := by
  refine .bind takeScratch_ensures fun up upEmpty =>
    .bind takeScratch_ensures fun down downEmpty => ?_
  subst upEmpty downEmpty
  exact .bind ensures fun _ holds => .bind .step fun _ _ => .bind .step fun _ _ => .pure holds

/-- What the scratch buffers do is not seen in the result: the terms are filled into
empty lists, and collected when they are enough. -/
theorem collectFilled_ensures {allowed : Step → Prop} {chain : Chain}
    {gather : Terms → Traced Terms} {node : Expr} {gathered : Terms → Prop}
    {condition : Expr → Prop} (fills : (gather .empty).Ensures allowed gathered)
    (finishes : ∀ terms, gathered terms → Traced.Ensures allowed
      (if chain.shouldCollect terms.up.length terms.down.length then collect kernel chain terms
        else Expr.make node) condition) :
    (collectFilled kernel chain gather node).Ensures allowed condition := by
  refine withScratch_ensures (.bind fills fun terms holds => ?_)
  have finished := finishes terms holds
  split at finished
  · next enough =>
      rw [if_pos enough]
      exact .bind finished fun _ holds => .pure holds
  · next few =>
      rw [if_neg few]
      exact .bind finished fun _ holds => .pure holds

/-- An operator of a chain joins its operands or joins the second inversely. -/
theorem Chain.of?_eq_some {chain : Chain} (family : Chain.of? op = some chain) :
    op = chain.op ∨ op = chain.inverse := by
  cases op <;> cases chain <;> simp_all [Chain.of?, Chain.op, Chain.inverse]

theorem Extends.gathers {chain : Chain} {result : Terms}
    (extended : Extends reading chain .empty value result) :
    Gathers reading chain result value := by
  obtain ⟨added, gathers, rfl⟩ := extended
  exact gathers

theorem fillOperands_gathers {chain : Chain} (family : Chain.of? op = some chain)
    (means : Means reading (.arith op left right mark) value) :
    (fillOperands chain op left right .empty).Ensures reading.allowed
      (Gathers reading chain · value) := by
  unfold fillOperands
  rcases Chain.of?_eq_some family with rfl | rfl
  · obtain ⟨first, second, leftMeans, rightMeans, rfl⟩ := Chain.means_op.mp means
    have distinct : chain.op ≠ chain.inverse := by cases chain <;> decide
    simp only [if_neg distinct]
    exact (fill_join (fill_extends leftMeans) (fill_extends rightMeans) .empty).mono
      fun _ extended => extended.gathers
  · obtain ⟨first, second, leftMeans, rightMeans, invertible, divides⟩ :=
      Chain.means_inverse.mp means
    simp only [if_true]
    exact (fill_divide (fill_extends leftMeans) (fill_extends rightMeans) invertible divides
      .empty).mono fun _ extended => extended.gathers

theorem collectOrBuild_means (sound : kernel.Sound reading)
    (means : Means reading (.arith op left right) value) :
    (collectOrBuild kernel op left right).Ensures reading.allowed (Means reading · value) := by
  unfold collectOrBuild
  cases family : Chain.of? op with
  | none => exact .ofMarking means.make
  | some chain =>
      refine collectFilled_ensures (fillOperands_gathers family means) fun terms gathers => ?_
      split
      · exact collect_means sound gathers
      · exact .ofMarking means.make

theorem applyBinary_means (sound : kernel.Sound reading)
    (means : Means reading (.arith op left right) value) :
    (applyBinary kernel op left right).Ensures reading.allowed (Means reading · value) :=
  Rule.Ensures.run_match (combine_means sound means) (fun _ found => .pure found)
    (collectOrBuild_means sound means)

theorem negateByForm_means (sound : kernel.Sound reading) (means : Means reading operand value) :
    (negateByForm kernel operand).Ensures reading.allowed (Means reading · (-value)) := by
  unfold negateByForm
  split
  · exact .pure (Means.neg_iff.mp means)
  · obtain ⟨first, second, leftMeans, rightMeans, rfl⟩ := Means.sub_iff.mp means
    rw [neg_sub]
    exact .lift (sound.binary (.sub rightMeans leftMeans))
  · obtain ⟨first, second, leftMeans, rightMeans, rfl⟩ := Means.mul_iff.mp means
    split
    · rename_i view
      refine .bind (.lift (negateNumber_means (leftMeans.of_asNumber? view))) fun flipped
        flippedMeans => .lift (sound.binary ?_)
      simpa using flippedMeans.mul rightMeans
    · rename_i view
      refine .bind (.lift (negateNumber_means (rightMeans.of_asNumber? view))) fun flipped
        flippedMeans => .lift (sound.binary ?_)
      simpa [mul_comm] using flippedMeans.mul leftMeans
    · exact .failure
  · exact .failure

theorem negateTerms_means (sound : kernel.Sound reading) (means : Means reading operand value) :
    (negateTerms kernel operand).Ensures reading.allowed (Means reading · (-value)) := by
  have fills : Traced.Ensures reading.allowed
      (do return (← fillAdditive operand Terms.empty.swap).swap)
      (Gathers reading .additive · (-value)) :=
    .bind (fillAdditive_extends means .empty) fun _ extended => .pure extended.gathers.neg
  refine collectFilled_ensures fills fun terms gathers => ?_
  split
  · exact collect_means sound gathers
  · exact .ofMarking means.neg.make

theorem applyNegation_means (sound : kernel.Sound reading) (means : Means reading operand value) :
    (applyNegation kernel operand).Ensures reading.allowed (Means reading · (-value)) := by
  unfold applyNegation
  split
  · exact .pure (means.of_isError ‹_› _)
  · rw [means.toNumber?, means.asArray?, means.isTextual]
    cases view : operand.asNumber? with
    | some number => exact negateNumber_means (means.of_asNumber? view)
    | none =>
        refine Rule.Ensures.run_match
          (.orElse (negateByForm_means sound means) (negated_means sound means))
          (fun _ found => .pure found) (negateTerms_means sound means)

end Operators

/-! ## Depths -/

namespace Kernel

variable {kernel : Kernel}

theorem plain_sound (reading : Reading K) : Kernel.plain.Sound reading where
  computes := plain_computes reading.inRange
  binary means := Rule.Ensures.run_match (numericRule_means means) (fun _ found => .pure found)
    (.ofMarking means.make)
  negate {operand _} means := by
    unfold plain
    dsimp only
    rw [means.toNumber?]
    cases view : operand.asNumber? with
    | some number => exact negateNumber_means (means.of_asNumber? view)
    | none => exact .ofMarking means.neg.make

theorem above_sound (sound : kernel.Sound reading) : kernel.above.Sound reading where
  computes := above_computes reading.inRange
  binary means := applyBinary_means sound means
  negate means := applyNegation_means sound means

theorem ofDepth_sound (reading : Reading K) (depth : Nat) :
    (Kernel.ofDepth depth).Sound reading := by
  induction depth with
  | zero => exact plain_sound reading
  | succ depth ih => exact above_sound ih

end Kernel

namespace Expr

/-- The engine below an operator is never that of depth zero. -/
theorem arithmetic_eq_applyBinary (op : ArithOp) (left right : Expr) :
    ∃ depth, arithmetic op left right = applyBinary (Kernel.ofDepth depth) op left right := by
  obtain ⟨depth, deep⟩ : ∃ depth, callDepth (left.size + right.size) = depth + 1 :=
    Nat.exists_eq_succ_of_ne_zero (Nat.two_pow_pos _).ne'
  rw [arithmetic, deep]
  exact ⟨depth, rfl⟩

theorem neg_eq_applyNegation (operand : Expr) :
    ∃ depth, operand.neg = applyNegation (Kernel.ofDepth depth) operand := by
  obtain ⟨depth, deep⟩ : ∃ depth, callDepth operand.size = depth + 1 :=
    Nat.exists_eq_succ_of_ne_zero (Nat.two_pow_pos _).ne'
  rw [neg, deep]
  exact ⟨depth, rfl⟩

variable {op : ArithOp} {left right operand : Expr} {value : K}

/-- An operator applied to two trees has the value of the node. -/
theorem arithmetic_means (means : Means reading (.arith op left right) value) :
    (Expr.arithmetic op left right).Ensures reading.allowed (Means reading · value) :=
  (Kernel.ofDepth_sound reading _).binary means

theorem neg_means (means : Means reading operand value) :
    operand.neg.Ensures reading.allowed (Means reading · (-value)) :=
  (Kernel.ofDepth_sound reading _).negate means

end Expr

end SymbolicAlgebra
