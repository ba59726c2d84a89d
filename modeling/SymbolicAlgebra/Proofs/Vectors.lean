import SymbolicAlgebra.Proofs.Differentiation
import SymbolicAlgebra.Proofs.Tensors

/-!
# Arrays of rational functions

Where all elements of an array have values, sums and differences of arrays of one length
have the values of sums and differences of the elements.  In products and quotients a
scalar is spread over the elements of an array, and negation and evaluation reach every
element.  So each operation on arrays is stated by what it does at one index.
-/

namespace SymbolicAlgebra

/-! ## Elements by their index -/

section ByIndex

variable {Item Result : Type}

theorem Traced.Ensures.forEach_getElem? {allowed : Step → Prop} {compute : Item → Traced Result}
    {items : List Item} {holds : Nat → Result → Prop}
    (ensures : ∀ index item, items[index]? = some item →
      (compute item).Ensures allowed (holds index)) :
    (Traced.forEach compute items).Ensures allowed fun results =>
      results.length = items.length ∧
        ∀ index result, results[index]? = some result → holds index result := by
  induction items generalizing holds with
  | nil => exact .pure ⟨rfl, nofun⟩
  | cons item items ih =>
      refine .bind (ensures 0 item rfl) fun first firstHolds => ?_
      refine .bind (ih fun index => ensures (index + 1)) fun rest ⟨length, restHolds⟩ => .pure ?_
      refine ⟨congrArg (· + 1) length, fun index result found => ?_⟩
      cases index with
      | zero => exact Option.some.inj found ▸ firstHolds
      | succ index => exact restHolds index result found

theorem Evaluation.Finishes.forEach_getElem? {allowed : Step → Prop} {scope : Scope}
    {compute : Expr → Evaluation Expr} {items : List Expr} {holds : Nat → Expr → Prop}
    (finishes : ∀ index item, items[index]? = some item →
      Finishes allowed scope (compute item) (holds index)) :
    Finishes allowed scope (Evaluation.forEach compute items) fun results =>
      results.length = items.length ∧
        ∀ index result, results[index]? = some result → holds index result := by
  induction items generalizing holds with
  | nil => exact .pure ⟨rfl, nofun⟩
  | cons item items ih =>
      refine .bind (finishes 0 item rfl) fun first => ?_
      refine .bind (ih fun index => finishes (index + 1)) fun rest => .pure ?_
      intro ⟨length, restHolds⟩ firstHolds
      refine ⟨congrArg (· + 1) length, fun index result found => ?_⟩
      cases index with
      | zero => exact Option.some.inj found ▸ firstHolds
      | succ index => exact restHolds index result found

end ByIndex

/-! ## Arithmetic on arrays -/

/-- When an operand is an array, operators come down to the rule for arrays. -/
theorem Expr.arithmetic_array {allowed : Step → Prop} {op : ArithOp} {left right : Expr}
    {condition : Expr → Prop} (noError : firstError? left right = none)
    (noNumbers : left.toNumber? = none ∨ right.toNumber? = none)
    (succeeds : ∀ depth,
      (arrayRule (Kernel.ofDepth depth) op left right).Succeeds allowed condition) :
    (Expr.arithmetic op left right).Ensures allowed condition := by
  obtain ⟨depth, equal⟩ := arithmetic_eq_applyBinary op left right
  rw [equal]
  exact (Tensor.combine_arrays noError noNumbers (succeeds depth)).run_match
    fun _ holds => .pure holds

/-- An array of the given length whose elements have the given values. -/
def IsVector (valuation : String → Option ℚ) (count : Nat) (values : Nat → ℚ) (tree : Expr) :
    Prop :=
  ∃ items mark, tree = .array items mark ∧ items.length = count ∧
    ∀ index item, items[index]? = some item → Means (.rationals valuation) item (values index)

namespace IsVector

variable {valuation : String → Option ℚ} {count : Nat} {first second values : Nat → ℚ}
  {left right tree scalar : Expr} {op : ArithOp} {factor : ℚ}

/-- An array is made of what a computation gives for each element of a list. -/
theorem of_forEach {Item : Type} {compute : Item → Traced Expr} {items : List Item}
    (length : items.length = count)
    (ensures : ∀ index item, items[index]? = some item → (compute item).Ensures
      (·.staysExact = true) (Means (.rationals valuation) · (values index))) :
    (do
      let results ← Traced.forEach compute items
      Expr.make (.array results) : Traced Expr).Ensures (·.staysExact = true)
        (IsVector valuation count values) :=
  .bind (.forEach_getElem? ensures) fun results ⟨kept, hold⟩ =>
    .make fun mark => ⟨results, mark, rfl, kept.trans length, hold⟩

theorem kernel_binary {depth : Nat} {value : ℚ}
    (means : Means (.rationals valuation) (.arith op left right) value) :
    ((Kernel.ofDepth depth).binary op left right).Ensures (·.staysExact = true)
      (Means (.rationals valuation) · value) :=
  ((Kernel.ofDepth_sound (.rationals valuation) depth).binary means).restrict
    fun _ => Step.staysInRange_of_staysExact

/-- Two arrays are combined element by element. -/
theorem elementwise (leftVector : IsVector valuation count first left)
    (rightVector : IsVector valuation count second right) (notPower : op ≠ .pow)
    (applied : ∀ {index : Nat} {item other : Expr},
      Means (.rationals valuation) item (first index) →
        Means (.rationals valuation) other (second index) →
          Means (.rationals valuation) (.arith op item other) (values index)) :
    (Expr.arithmetic op left right).Ensures (·.staysExact = true)
      (IsVector valuation count values) := by
  obtain ⟨items, inner, rfl, length, leftMeans⟩ := leftVector
  obtain ⟨others, outer, rfl, otherLength, rightMeans⟩ := rightVector
  refine Expr.arithmetic_array rfl (.inl rfl) fun depth => ?_
  simp only [arrayRule, Expr.asArray?, notPower, if_false]
  refine .lift ?_
  rw [SymbolicAlgebra.elementwise, if_neg (by simp [length, otherLength])]
  refine of_forEach (by simp [length, otherLength]) fun index pair found => ?_
  obtain ⟨itemFound, otherFound⟩ := List.getElem?_zip_eq_some.mp found
  exact kernel_binary (applied (leftMeans index _ itemFound) (rightMeans index _ otherFound))

theorem firstError?_right (vector : IsVector valuation count first tree)
    (means : Means (.rationals valuation) scalar factor) : firstError? tree scalar = none := by
  obtain ⟨items, mark, rfl, -⟩ := vector
  have isError := means.isError id
  rw [firstError?, isError]
  rfl

theorem firstError?_left (vector : IsVector valuation count first tree)
    (means : Means (.rationals valuation) scalar factor) : firstError? scalar tree = none := by
  obtain ⟨items, mark, rfl, -⟩ := vector
  have isError := means.isError id
  rw [firstError?, isError]
  rfl

/-- A scalar times an array. -/
theorem scalar_mul (means : Means (.rationals valuation) scalar factor)
    (vector : IsVector valuation count first tree) :
    (scalar.mul tree).Ensures (·.staysExact = true)
      (IsVector valuation count fun index => factor * first index) := by
  have noError := vector.firstError?_left means
  obtain ⟨items, mark, rfl, length, itemMeans⟩ := vector
  refine Expr.arithmetic_array noError (.inr rfl) fun depth => ?_
  rw [arrayRule, means.asArray?]
  exact .lift (of_forEach length fun index item found =>
    kernel_binary (means.mul (itemMeans index item found)))

/-- An array times or over a scalar. -/
theorem spread (vector : IsVector valuation count first tree)
    (means : Means (.rationals valuation) scalar factor) (spreads : op = .mul ∨ op = .div)
    (applied : ∀ {index : Nat} {item : Expr}, index < count →
      Means (.rationals valuation) item (first index) →
        Means (.rationals valuation) (.arith op item scalar) (values index)) :
    (Expr.arithmetic op tree scalar).Ensures (·.staysExact = true)
      (IsVector valuation count values) := by
  have noError := vector.firstError?_right means
  obtain ⟨items, mark, rfl, length, itemMeans⟩ := vector
  have elements (depth : Nat) : (do
      let results ← Traced.forEach
        (fun item => (Kernel.ofDepth depth).binary op item scalar) items
      Expr.make (.array results) : Traced Expr).Ensures (·.staysExact = true)
        (IsVector valuation count values) :=
    of_forEach length fun index item found => kernel_binary
      (applied (length ▸ (List.getElem?_eq_some_iff.mp found).1) (itemMeans index item found))
  refine Expr.arithmetic_array noError (.inl rfl) fun depth => ?_
  rw [arrayRule, means.asArray?]
  rcases spreads with rfl | rfl <;> exact .lift (elements depth)

theorem neg (vector : IsVector valuation count first tree) :
    tree.neg.Ensures (·.staysExact = true)
      (IsVector valuation count fun index => -first index) := by
  obtain ⟨items, mark, rfl, length, itemMeans⟩ := vector
  obtain ⟨depth, engine⟩ := Expr.neg_eq_applyNegation (.array items mark)
  rw [engine]
  refine of_forEach length fun index item found => ?_
  exact ((Kernel.ofDepth_sound (.rationals valuation) depth).negate
    (itemMeans index item found)).restrict fun _ => Step.staysInRange_of_staysExact

/-! ## Evaluation -/

/-- With as much fuel as the array has nodes, evaluation finishes with an array of numbers. -/
theorem evaluateTo_finishes {scope : Scope} {fuel : Nat} (controller : Option Controller)
    (vector : IsVector valuation count values tree) (binds : scope.Binds valuation)
    (enough : tree.size ≤ fuel) :
    (Expr.evaluateTo controller fuel tree).Finishes (·.staysInRange = true) scope fun result =>
      ∃ items mark, result = .array items mark ∧ items.length = count ∧
        ∀ index item, items[index]? = some item → ∃ number inner,
          item = .number number inner ∧ number.toRatio? = some (values index) := by
  obtain ⟨items, mark, rfl, length, itemMeans⟩ := vector
  obtain ⟨rest, rfl⟩ := Expr.fuel_eq_succ enough
  have element (index : Nat) (item : Expr) (found : items[index]? = some item) :
      (Expr.evaluateTo controller rest item).Finishes (·.staysInRange = true) scope
        (Expr.Yields (fun _ => none) (·.isNumber = true) (values index)) := by
    have smaller : item.size < (Expr.array items mark).size :=
      Expr.size_lt_of_mem_children (List.mem_of_getElem? found)
    exact Expr.evaluateTo_finishes Expr.closed_isNumber binds.resolves (itemMeans index item found)
      (by omega)
  have array (results : List Expr) :
      (liftM (Expr.make (.array results)) : Evaluation Expr).Finishes (·.staysInRange = true) scope
        fun result => ∃ mark, result = .array results mark :=
    .ofMarking (.make fun mark => ⟨mark, rfl⟩)
  refine .bind (.forEach_getElem? element) fun results => (array results).mono ?_
  rintro _ ⟨mark, rfl⟩ ⟨kept, hold⟩
  refine ⟨results, mark, rfl, kept.trans length, fun index item found => ?_⟩
  obtain ⟨means, isNumber⟩ := hold index item found
  obtain ⟨number, inner, rfl⟩ := Expr.eq_of_isNumber isNumber
  exact ⟨number, inner, rfl, (Reading.reads_rationals_iff.mp (Means.number_iff.mp means)).1⟩

end IsVector

end SymbolicAlgebra
