import SymbolicAlgebra.Proofs.Errors
import SymbolicAlgebra.Proofs.Vectors

/-!
# Derivatives of arrays

An array is differentiated component by component.  The rules for sums, products and
quotients are those of scalars: what does not depend on the variable has the scalar zero
for its derivative, also where it is an array, and zero times a formula that is not an
array itself is the scalar zero.  A scalar can not be added to an array.

So the derivative of a formula over arrays is an array of the derivatives of its
components only as long as no such zero takes the place of an array: `keepsShape` says
which formulas these are.  For all others the derivative is a number or an error.
-/

namespace SymbolicAlgebra

/-! ## Formulas over arrays -/

/-- Arrays of rational functions, all of one length, under sums, differences, negation and
products and quotients with integers. -/
inductive ArrayFormula (count : Nat) : Expr → Prop where
  | literal {items : List Expr} {mark : Mark} : items.length = count →
      (∀ item ∈ items, item.isRationalFunction = true) → ArrayFormula count (.array items mark)
  | neg {operand : Expr} {mark : Mark} : ArrayFormula count operand →
      ArrayFormula count (.unary .neg operand mark)
  | add {left right : Expr} {mark : Mark} : ArrayFormula count left → ArrayFormula count right →
      ArrayFormula count (.arith .add left right mark)
  | sub {left right : Expr} {mark : Mark} : ArrayFormula count left → ArrayFormula count right →
      ArrayFormula count (.arith .sub left right mark)
  | scale {factor : Int} {operand : Expr} {inner mark : Mark} : InRange factor →
      ArrayFormula count operand →
        ArrayFormula count (.arith .mul (.number (.int factor) inner) operand mark)
  | mul {factor : Int} {operand : Expr} {inner mark : Mark} : ArrayFormula count operand →
      InRange factor → ArrayFormula count (.arith .mul operand (.number (.int factor) inner) mark)
  | div {divisor : Int} {operand : Expr} {inner mark : Mark} : ArrayFormula count operand →
      InRange divisor → ArrayFormula count (.arith .div operand (.number (.int divisor) inner) mark)

namespace Expr

/-- The component of a formula at an index: the formula over the elements of its arrays. -/
def component (index : Nat) : Expr → Expr
  | .array items _ => items[index]?.getD (.int 0)
  | .unary op operand mark => .unary op (operand.component index) mark
  | .arith op left right mark => .arith op (left.component index) (right.component index) mark
  | tree => tree

@[simp] theorem component_number (index : Nat) (number : Number) (mark : Mark) :
    (Expr.number number mark).component index = .number number mark :=
  rfl

@[simp] theorem component_unary (index : Nat) (op : UnaryOp) (operand : Expr) (mark : Mark) :
    (Expr.unary op operand mark).component index = .unary op (operand.component index) mark :=
  rfl

@[simp] theorem component_arith (index : Nat) (op : ArithOp) (left right : Expr) (mark : Mark) :
    (Expr.arith op left right mark).component index =
      .arith op (left.component index) (right.component index) mark :=
  rfl

def isArray (tree : Expr) : Bool := tree.asArray?.isSome

/-- Nowhere in the derivative does a scalar take the place of an array. -/
def keepsShape (name : String) : Expr → Bool
  | .array _ _ => true
  | node@(.unary .neg operand _) => node.containsVariable name && operand.keepsShape name
  | node@(.arith .add left right _) | node@(.arith .sub left right _) =>
      node.containsVariable name && left.keepsShape name && right.keepsShape name
  | node@(.arith .mul left right _) => node.containsVariable name && (left.isArray || right.isArray)
  | node@(.arith .div left _ _) => node.containsVariable name && left.isArray
  | _ => false

variable {name : String} {tree left right operand : Expr} {mark : Mark}

/-! ## Derivatives of the components -/

/-- Every component has a value and a derivative, and differentiation yields the array of
the derivatives. -/
structure DerivesVector (valuation : String → Option ℚ) (name : String) (count : Nat)
    (tree : Expr) (duals : Nat → DualNumber ℚ) : Prop where
  denotes : ∀ index < count,
    (tree.component index).denote (perturbed valuation name) = some (duals index)
  computes : ∀ depth, tree.size ≤ depth → (differentiateTo depth name tree).Ensures
    (·.staysExact = true) (IsVector valuation count fun index => (duals index).snd)

variable {valuation : String → Option ℚ} {count : Nat} {first second : Nat → DualNumber ℚ}
  {op : ArithOp} {items : List Expr} {factor : Int} {inner : Mark}

/-- The elements of an array literal have values and derivatives. -/
theorem exists_derivesVector_array (name : String) (length : items.length = count)
    (defined : ∀ index < count, ∃ value,
      Means (.rationals valuation) ((Expr.array items mark).component index) value) :
    ∃ duals : Nat → DualNumber ℚ,
      IsVector valuation count (fun index => (duals index).fst) (.array items mark) ∧
        DerivesVector valuation name count (.array items mark) duals := by
  have each (index : Nat) : ∃ dual, ∀ item, items[index]? = some item →
      Derives valuation name item dual := by
    cases found : items[index]? with
    | none => exact ⟨0, nofun⟩
    | some item =>
        obtain ⟨value, means⟩ := defined index (length ▸ (List.getElem?_eq_some_iff.mp found).1)
        rw [component, found] at means
        obtain ⟨dual, -, derives⟩ := exists_derives name means
        exact ⟨dual, fun _ same => Option.some.inj same ▸ derives⟩
  choose duals derives using each
  refine ⟨duals, ⟨items, mark, rfl, length, fun index item found =>
    (derives index item found).means⟩, ?_, ?_⟩
  · intro index within
    have found : items[index]? = some items[index] := List.getElem?_eq_getElem (length ▸ within)
    rw [component, found]
    exact (derives index _ found).denotes
  · intro depth enough
    obtain ⟨rest, rfl⟩ := fuel_eq_succ enough
    refine IsVector.of_forEach length fun index item found =>
      (derives index item found).computes rest ?_
    have smaller : item.size < (Expr.array items mark).size :=
      size_lt_of_mem_children (List.mem_of_getElem? found)
    omega

/-- An integer has derivative zero. -/
theorem differentiateTo_int {depth : Nat} {allowed : Step → Prop}
    (enough : (Expr.number (.int factor) inner).size ≤ depth) :
    (differentiateTo depth name (.number (.int factor) inner)).Ensures allowed (· = .int 0) := by
  obtain ⟨rest, rfl⟩ := fuel_eq_succ enough
  exact .pure rfl

namespace DerivesVector

theorem neg (derives : DerivesVector valuation name count operand first)
    (mentions : (Expr.unary .neg operand mark).containsVariable name = true) :
    DerivesVector valuation name count (.unary .neg operand mark) fun index => -first index where
  denotes index within := by simp [denote, derives.denotes index within]
  computes depth enough := by
    obtain ⟨rest, rfl⟩ := fuel_eq_succ enough
    rw [size_unary] at enough
    simp only [differentiateTo, differentiateNode]
    rw [if_neg (by simp [mentions])]
    exact .bind (derives.computes rest (by omega)) fun slope vector => vector.neg

/-- The rule of an operator applies where the variable is mentioned. -/
theorem of_rule {duals : Nat → DualNumber ℚ}
    (denotes : ∀ index < count, ((Expr.arith op left right mark).component index).denote
      (perturbed valuation name) = some (duals index))
    (mentions : (Expr.arith op left right mark).containsVariable name = true)
    (rule : ∀ depth, left.size ≤ depth → right.size ≤ depth →
      (differentiateArith (differentiateTo depth name) name (.arith op left right mark) op
        left right).Ensures (·.staysExact = true)
          (IsVector valuation count fun index => (duals index).snd)) :
    DerivesVector valuation name count (.arith op left right mark) duals where
  denotes := denotes
  computes depth enough := by
    obtain ⟨rest, rfl⟩ := fuel_eq_succ enough
    rw [size_arith] at enough
    simp only [differentiateTo, differentiateNode]
    rw [if_neg (by simp [mentions])]
    exact rule rest (by omega) (by omega)

theorem add (leftDerives : DerivesVector valuation name count left first)
    (rightDerives : DerivesVector valuation name count right second)
    (mentions : (Expr.arith .add left right mark).containsVariable name = true) :
    DerivesVector valuation name count (.arith .add left right mark)
      fun index => first index + second index := by
  refine of_rule (fun index within => ?_) mentions fun depth leftEnough rightEnough => ?_
  · simp [denote, leftDerives.denotes index within, rightDerives.denotes index within]
  · exact .bind (leftDerives.computes depth leftEnough) fun _ leftSlopes =>
      .bind (rightDerives.computes depth rightEnough) fun _ rightSlopes =>
        leftSlopes.elementwise rightSlopes (by decide) Means.add

theorem sub (leftDerives : DerivesVector valuation name count left first)
    (rightDerives : DerivesVector valuation name count right second)
    (mentions : (Expr.arith .sub left right mark).containsVariable name = true) :
    DerivesVector valuation name count (.arith .sub left right mark)
      fun index => first index - second index := by
  refine of_rule (fun index within => ?_) mentions fun depth leftEnough rightEnough => ?_
  · simp [denote, leftDerives.denotes index within, rightDerives.denotes index within]
  · exact .bind (leftDerives.computes depth leftEnough) fun _ leftSlopes =>
      .bind (rightDerives.computes depth rightEnough) fun _ rightSlopes =>
        leftSlopes.elementwise rightSlopes (by decide) Means.sub

theorem scale (vector : IsVector valuation count (fun index => (first index).fst) operand)
    (derives : DerivesVector valuation name count operand first) (inRange : InRange factor)
    (mentions :
      (Expr.arith .mul (.number (.int factor) inner) operand mark).containsVariable name = true) :
    DerivesVector valuation name count (.arith .mul (.number (.int factor) inner) operand mark)
      fun index => (factor : DualNumber ℚ) * first index := by
  have literal : Means (.rationals valuation) (.number (.int factor) inner) factor :=
    .number (Reading.reads_int inRange)
  refine of_rule (fun index within => ?_) mentions fun depth leftEnough rightEnough => ?_
  · simp [denote, derives.denotes index within, Number.toRatio?]
  · refine .bind (differentiateTo_int leftEnough) ?_
    rintro _ rfl
    refine .bind (IsVector.scalar_mul .zero vector) fun _ leftProduct =>
      .bind (derives.computes depth rightEnough) fun _ slopes =>
        .bind (IsVector.scalar_mul literal slopes) fun _ rightProduct =>
          leftProduct.elementwise rightProduct (by decide) fun {index} _ _ item other => ?_
    have slope : ((factor : DualNumber ℚ) * first index).snd =
        0 * (first index).fst + factor * (first index).snd := by
      simp [TrivSqZeroExt.snd_mul]
    rw [slope]
    exact item.add other

/-- The two products of the rules for products and quotients, where the right operand is
an integer. -/
theorem products (vector : IsVector valuation count (fun index => (first index).fst) operand)
    (derives : DerivesVector valuation name count operand first) (inRange : InRange factor)
    {depth : Nat} (leftEnough : operand.size ≤ depth)
    (rightEnough : (Expr.number (.int factor) inner).size ≤ depth)
    {next : Expr → Expr → Traced Expr} {condition : Expr → Prop}
    (continues : ∀ leftProduct rightProduct,
      IsVector valuation count (fun index => (first index).snd * factor) leftProduct →
      IsVector valuation count (fun index => (first index).fst * 0) rightProduct →
        (next leftProduct rightProduct).Ensures (·.staysExact = true) condition) :
    (do
      let leftProduct ←
        (← differentiateTo depth name operand).mul (.number (.int factor) inner)
      let rightProduct ←
        operand.mul (← differentiateTo depth name (.number (.int factor) inner))
      next leftProduct rightProduct).Ensures (·.staysExact = true) condition := by
  have literal : Means (.rationals valuation) (.number (.int factor) inner) factor :=
    .number (Reading.reads_int inRange)
  refine .bind (derives.computes depth leftEnough) fun _ slopes =>
    .bind (slopes.spread literal (.inl rfl) fun _ item => item.mul literal) fun _ leftProduct =>
      .bind (differentiateTo_int rightEnough) ?_
  rintro _ rfl
  exact .bind (vector.spread .zero (.inl rfl) fun _ item => item.mul .zero) fun _ rightProduct =>
    continues _ _ leftProduct rightProduct

theorem mul (vector : IsVector valuation count (fun index => (first index).fst) operand)
    (derives : DerivesVector valuation name count operand first) (inRange : InRange factor)
    (mentions :
      (Expr.arith .mul operand (.number (.int factor) inner) mark).containsVariable name = true) :
    DerivesVector valuation name count (.arith .mul operand (.number (.int factor) inner) mark)
      fun index => first index * (factor : DualNumber ℚ) := by
  refine of_rule (fun index within => ?_) mentions fun depth leftEnough rightEnough => ?_
  · simp [denote, derives.denotes index within, Number.toRatio?]
  · refine derives.products vector inRange leftEnough rightEnough
      fun _ _ leftProduct rightProduct =>
        leftProduct.elementwise rightProduct (by decide) fun {index} _ _ item other => ?_
    have slope : (first index * (factor : DualNumber ℚ)).snd =
        (first index).snd * factor + (first index).fst * 0 := by
      simp [TrivSqZeroExt.snd_mul]
    rw [slope]
    exact item.add other

theorem div (vector : IsVector valuation count (fun index => (first index).fst) operand)
    (derives : DerivesVector valuation name count operand first) (inRange : InRange factor)
    (nonzero : ∀ index < count, (factor : ℚ) ≠ 0)
    (mentions :
      (Expr.arith .div operand (.number (.int factor) inner) mark).containsVariable name = true) :
    DerivesVector valuation name count (.arith .div operand (.number (.int factor) inner) mark)
      fun index => first index * (factor : DualNumber ℚ)⁻¹ := by
  have literal : Means (.rationals valuation) (.number (.int factor) inner) factor :=
    .number (Reading.reads_int inRange)
  refine of_rule (fun index within => ?_) mentions fun depth leftEnough rightEnough => ?_
  · have inverse : inverse? (factor : DualNumber ℚ) = some (factor : DualNumber ℚ)⁻¹ :=
      inverse?_dual (by simpa using nonzero index within)
    simp [denote, derives.denotes index within, Number.toRatio?, inverse]
  · refine derives.products vector inRange leftEnough rightEnough
      fun _ _ leftProduct rightProduct => ?_
    have square : Means (.rationals valuation)
        (.arith .pow (.number (.int factor) inner) (.int 2)) ((factor : ℚ) ^ 2) :=
      .pow literal (by decide) (.of_natural _ (by decide))
    refine .bind (leftProduct.elementwise rightProduct (by decide) Means.sub)
      fun _ numerator => .bind (arithmetic_exact square) fun _ denominator =>
        numerator.spread denominator (.inr rfl) fun {index} _ within item =>
          item.div denominator (IsUnit.mk0 _ (pow_ne_zero 2 (nonzero index within))) ?_
    have := nonzero index within
    simp [TrivSqZeroExt.snd_mul]
    field_simp

end DerivesVector

theorem exists_of_isArray (isArray : tree.isArray = true) :
    ∃ items mark, tree = .array items mark := by
  obtain ⟨items, view⟩ := Option.isSome_iff_exists.mp isArray
  obtain ⟨mark, rfl⟩ := eq_of_asArray? view
  exact ⟨items, mark, rfl⟩

end Expr

namespace ArrayFormula

open SymbolicAlgebra.Expr

variable {valuation : String → Option ℚ} {count : Nat} {name : String} {tree : Expr}

/-- The components of both operands have values where those of the node have. -/
theorem defined_operands {op : ArithOp} {left right : Expr} {mark : Mark}
    (defined : ∀ index < count, ∃ value,
      Means (.rationals valuation) ((Expr.arith op left right mark).component index) value) :
    (∀ index < count, ∃ value, Means (.rationals valuation) (left.component index) value) ∧
      ∀ index < count, ∃ value, Means (.rationals valuation) (right.component index) value := by
  constructor
  · intro index within
    obtain ⟨value, means⟩ := defined index within
    obtain ⟨first, second, leftMeans, -⟩ := means.operands
    exact ⟨first, leftMeans⟩
  · intro index within
    obtain ⟨value, means⟩ := defined index within
    obtain ⟨first, second, -, rightMeans⟩ := means.operands
    exact ⟨second, rightMeans⟩

/-- A formula that is an array by itself is a literal. -/
theorem exists_derivesVector_of_isArray (formula : ArrayFormula count tree)
    (isArray : tree.isArray = true)
    (defined : ∀ index < count, ∃ value,
      Means (.rationals valuation) (tree.component index) value) :
    ∃ duals : Nat → DualNumber ℚ, IsVector valuation count (fun index => (duals index).fst) tree ∧
      DerivesVector valuation name count tree duals := by
  obtain ⟨items, mark, rfl⟩ := exists_of_isArray isArray
  cases formula with
  | literal length _ => exact exists_derivesVector_array name length defined

/-- Where all components have values, a formula that keeps its shape is differentiated
component by component. -/
theorem exists_derivesVector (formula : ArrayFormula count tree)
    (keeps : tree.keepsShape name = true)
    (defined : ∀ index < count, ∃ value,
      Means (.rationals valuation) (tree.component index) value) :
    ∃ duals, DerivesVector valuation name count tree duals := by
  induction formula with
  | literal length _ =>
      obtain ⟨duals, -, derives⟩ := exists_derivesVector_array name length defined
      exact ⟨duals, derives⟩
  | neg _ ih =>
      obtain ⟨mentions, keeps⟩ := Bool.and_eq_true_iff.mp keeps
      obtain ⟨duals, derives⟩ := ih keeps fun index within => by
        obtain ⟨value, means⟩ := defined index within
        exact ⟨-value, Means.neg_iff.mp means⟩
      exact ⟨_, derives.neg mentions⟩
  | add _ _ leftIH rightIH =>
      obtain ⟨leftDefined, rightDefined⟩ := defined_operands defined
      simp only [keepsShape, Bool.and_eq_true] at keeps
      obtain ⟨first, leftDerives⟩ := leftIH keeps.1.2 leftDefined
      obtain ⟨second, rightDerives⟩ := rightIH keeps.2 rightDefined
      exact ⟨_, leftDerives.add rightDerives keeps.1.1⟩
  | sub _ _ leftIH rightIH =>
      obtain ⟨leftDefined, rightDefined⟩ := defined_operands defined
      simp only [keepsShape, Bool.and_eq_true] at keeps
      obtain ⟨first, leftDerives⟩ := leftIH keeps.1.2 leftDefined
      obtain ⟨second, rightDerives⟩ := rightIH keeps.2 rightDefined
      exact ⟨_, leftDerives.sub rightDerives keeps.1.1⟩
  | scale inRange operandFormula _ =>
      obtain ⟨mentions, isArray⟩ := Bool.and_eq_true_iff.mp keeps
      obtain ⟨duals, vector, derives⟩ :=
        operandFormula.exists_derivesVector_of_isArray isArray (defined_operands defined).2
      exact ⟨_, .scale vector derives inRange mentions⟩
  | mul operandFormula inRange _ =>
      obtain ⟨mentions, isArray⟩ := Bool.and_eq_true_iff.mp keeps
      have isArray := (Bool.or_eq_true_iff.mp isArray).resolve_right Bool.false_ne_true
      obtain ⟨duals, vector, derives⟩ :=
        operandFormula.exists_derivesVector_of_isArray isArray (defined_operands defined).1
      exact ⟨_, .mul vector derives inRange mentions⟩
  | div operandFormula inRange _ =>
      obtain ⟨mentions, isArray⟩ := Bool.and_eq_true_iff.mp keeps
      obtain ⟨duals, vector, derives⟩ :=
        operandFormula.exists_derivesVector_of_isArray isArray (defined_operands defined).1
      refine ⟨_, .div vector derives inRange (fun index within => ?_) mentions⟩
      obtain ⟨value, means⟩ := defined index within
      obtain ⟨_, _, _, divisor, invertible, _⟩ := Means.div_iff.mp means
      exact (Means.number_iff.mp divisor).int_eq ▸ invertible.ne_zero

end ArrayFormula

/-! ## Shapes of derivatives -/

namespace Expr

variable {left right tree : Expr} {op : ArithOp} {arrays leftArrays rightArrays : Bool}

/-- A number, an error or, if arrays are admitted, an array. -/
def HasShape (arrays : Bool) (tree : Expr) : Prop :=
  (arrays = true ∧ tree.isArray = true) ∨ tree.isNumber = true ∨ tree.isError = true

namespace HasShape

theorem array (isArray : tree.isArray = true) : tree.HasShape true := .inl ⟨rfl, isArray⟩

theorem number {number : Number} {mark : Mark} : (Expr.number number mark).HasShape arrays :=
  .inr (.inl rfl)

theorem error {fault : Fault} {mark : Mark} : (Expr.error fault mark).HasShape arrays :=
  .inr (.inr rfl)

theorem mono (shape : tree.HasShape leftArrays)
    (admits : leftArrays = true → rightArrays = true) : tree.HasShape rightArrays :=
  shape.imp_left fun ⟨admitted, isArray⟩ => ⟨admits admitted, isArray⟩

theorem of_tensor (tensor : Tensor .numbers 0 tree) : tree.HasShape arrays := by
  cases tensor with
  | error isError => exact .inr (.inr isError)
  | scalar admitted => exact .inr (.inl admitted)

/-- What has a shape and is no error. -/
theorem array_or_number (shape : tree.HasShape arrays) (noError : tree.isError = false) :
    (arrays = true ∧ ∃ items mark, tree = .array items mark) ∨
      ∃ number mark, tree = .number number mark := by
  rcases shape with ⟨admitted, isArray⟩ | isNumber | isError
  · exact .inl ⟨admitted, exists_of_isArray isArray⟩
  · exact .inr (eq_of_isNumber isNumber)
  · rw [noError] at isError
    cases isError

/-- An operator hands on the first error among its operands, and computes numbers; so only
arrays have to be looked at. -/
theorem arithmetic (leftShape : left.HasShape leftArrays) (rightShape : right.HasShape rightArrays)
    (bothArrays : ∀ {items others inner outer}, leftArrays = true → rightArrays = true →
      (Expr.arithmetic op (.array items inner) (.array others outer)).Ensures (fun _ => True)
        (HasShape arrays))
    (leftArray : ∀ {items inner number outer}, leftArrays = true →
      firstError? (.array items inner) (.number number outer) = none →
        (Expr.arithmetic op (.array items inner) (.number number outer)).Ensures (fun _ => True)
          (HasShape arrays))
    (rightArray : ∀ {items inner number outer}, rightArrays = true →
      firstError? (.number number outer) (.array items inner) = none →
        (Expr.arithmetic op (.number number outer) (.array items inner)).Ensures (fun _ => True)
          (HasShape arrays)) :
    (Expr.arithmetic op left right).Ensures (fun _ => True) (HasShape arrays) := by
  cases found : firstError? left right with
  | some fault =>
      obtain ⟨depth, equal⟩ := arithmetic_eq_applyBinary op left right
      rw [equal]
      have handedOn : (combine (Kernel.ofDepth depth) op left right).Succeeds (fun _ => True)
          (Tensor .numbers 0) := Tensor.combine_firstError found
      exact handedOn.run_match fun _ tensor => .pure (.of_tensor tensor)
  | none =>
      obtain ⟨leftNone, rightNone⟩ := Tensor.firstError?_eq_none_iff.mp found
      rcases leftShape.array_or_number leftNone with
        ⟨leftAdmits, items, inner, rfl⟩ | ⟨x, inner, rfl⟩ <;>
      rcases rightShape.array_or_number rightNone with
        ⟨rightAdmits, others, outer, rfl⟩ | ⟨y, outer, rfl⟩
      · exact bothArrays leftAdmits rightAdmits
      · exact leftArray leftAdmits found
      · exact rightArray rightAdmits found
      · have fits : op.fits 0 0 = true := by cases op <;> rfl
        have leftTensor : Tensor .numbers 0 (.number x inner) := .scalar rfl
        have rightTensor : Tensor .numbers 0 (.number y outer) := .scalar rfl
        have tensor := Tensor.binary rfl leftTensor rightTensor fits (le_callDepth _)
        exact (tensor.mono fun _ => .of_tensor).restrict fun _ _ => rfl

end HasShape

theorem forEach_isArray {Item : Type} {compute : Item → Traced Expr} {items : List Item} :
    (do
      let results ← Traced.forEach compute items
      make (.array results) : Traced Expr).Ensures (fun _ => True) (HasShape true) := by
  have results : (Traced.forEach compute items).Ensures (fun _ => True) (fun _ => True) :=
    fun _ _ => trivial
  exact .bind results fun _ _ => .make fun _ => .array rfl

theorem elementwise_shape {kernel : Kernel} {items others : List Expr} :
    (elementwise kernel op items others).Ensures (fun _ => True) (HasShape true) := by
  unfold elementwise
  split
  · exact .make fun _ => .error
  · exact forEach_isArray

namespace HasShape

/-- A sum or a difference is an array only if both operands are. -/
theorem sum (sums : op = .add ∨ op = .sub) (leftShape : left.HasShape leftArrays)
    (rightShape : right.HasShape rightArrays) :
    (Expr.arithmetic op left right).Ensures (fun _ => True)
      (HasShape (leftArrays && rightArrays)) := by
  refine leftShape.arithmetic rightShape ?_ ?_ ?_
  · rintro items others inner outer rfl rfl
    refine arithmetic_array rfl (.inl rfl) fun depth => ?_
    rcases sums with rfl | rfl <;> exact .lift elementwise_shape
  · intro items inner number outer _ noError
    refine arithmetic_array noError (.inl rfl) fun depth => ?_
    rcases sums with rfl | rfl <;> exact .lift (.make fun _ => .error)
  · intro items inner number outer _ noError
    refine arithmetic_array noError (.inr rfl) fun depth => ?_
    rcases sums with rfl | rfl <;> exact .lift (.make fun _ => .error)

theorem mul (leftShape : left.HasShape leftArrays) (rightShape : right.HasShape rightArrays) :
    (left.mul right).Ensures (fun _ => True) (HasShape (leftArrays || rightArrays)) := by
  refine leftShape.arithmetic rightShape ?_ ?_ ?_
  · rintro items others inner outer rfl rfl
    exact arithmetic_array rfl (.inl rfl) fun depth => .lift elementwise_shape
  · rintro items inner number outer rfl noError
    exact arithmetic_array noError (.inl rfl) fun depth => .lift forEach_isArray
  · rintro items inner number outer rfl noError
    rw [Bool.or_true]
    exact arithmetic_array noError (.inr rfl) fun depth => .lift forEach_isArray

/-- No operator makes an array of scalars. -/
theorem scalars (leftShape : left.HasShape false) (rightShape : right.HasShape false) :
    (Expr.arithmetic op left right).Ensures (fun _ => True) (HasShape false) := by
  refine leftShape.arithmetic rightShape ?_ ?_ ?_ <;>
  · intros
    contradiction

/-- A quotient by a scalar. -/
theorem div (leftShape : left.HasShape arrays) (rightShape : right.HasShape false) :
    (left.div right).Ensures (fun _ => True) (HasShape arrays) := by
  refine leftShape.arithmetic rightShape nofun ?_ nofun
  rintro items inner number outer rfl noError
  exact arithmetic_array noError (.inl rfl) fun depth => .lift forEach_isArray

theorem neg (shape : tree.HasShape arrays) :
    tree.neg.Ensures (fun _ => True) (HasShape arrays) := by
  have ofTensor (tensor : Tensor .numbers 0 tree) :
      tree.neg.Ensures (fun _ => True) (HasShape arrays) :=
    ((tensor.negate rfl (le_callDepth _)).restrict fun _ _ => rfl).mono fun _ => .of_tensor
  rcases shape with ⟨rfl, isArray⟩ | isNumber | isError
  · obtain ⟨items, mark, rfl⟩ := exists_of_isArray isArray
    obtain ⟨depth, engine⟩ := neg_eq_applyNegation (.array items mark)
    rw [engine]
    exact forEach_isArray
  · exact ofTensor (.scalar isNumber)
  · exact ofTensor (.error isError)

end HasShape

end Expr

namespace ArrayFormula

open SymbolicAlgebra.Expr

variable {count : Nat} {name : String} {tree operand left right : Expr} {op : ArithOp} {mark : Mark}

/-- To the rules of arithmetic a formula is an array or symbolic. -/
theorem isArray_or_isSymbolic (formula : ArrayFormula count tree) :
    tree.isArray = true ∨ tree.isArray = false ∧ tree.IsSymbolic := by
  cases formula with
  | literal => exact .inl rfl
  | _ => exact .inr ⟨rfl, rfl, rfl, rfl⟩

/-- Zero times an array is an array, and zero times another formula is zero. -/
theorem zero_mul_shape (formula : ArrayFormula count operand) :
    ((Expr.int 0).mul operand).Ensures (fun _ => True) (HasShape operand.isArray) := by
  rcases formula.isArray_or_isSymbolic with isArray | ⟨noArray, symbolic⟩
  · rw [isArray]
    have zero : (Expr.int 0).HasShape false := .number
    exact zero.mul (.array isArray)
  · exact (zero_mul_symbolic symbolic).mono fun _ zero => zero ▸ .number

theorem mul_zero_shape (formula : ArrayFormula count operand) :
    (operand.mul (.int 0)).Ensures (fun _ => True) (HasShape operand.isArray) := by
  rcases formula.isArray_or_isSymbolic with isArray | ⟨noArray, symbolic⟩
  · rw [isArray]
    have zero : (Expr.int 0).HasShape false := .number
    exact (HasShape.array isArray).mul zero
  · exact (mul_zero_symbolic symbolic).mono fun _ zero => zero ▸ .number

/-- The two products of the rules for products and quotients, where the right operand is
an integer. -/
theorem products_shape {arrays : Bool} {depth : Nat} {factor : Int} {inner : Mark}
    (formula : ArrayFormula count operand)
    (slope : (differentiateTo depth name operand).Ensures (fun _ => True) (HasShape arrays))
    (enough : (Expr.number (.int factor) inner).size ≤ depth)
    {next : Expr → Expr → Traced Expr} {condition : Expr → Prop}
    (continues : ∀ leftProduct rightProduct, leftProduct.HasShape arrays →
      rightProduct.HasShape operand.isArray →
        (next leftProduct rightProduct).Ensures (fun _ => True) condition) :
    (do
      let leftProduct ←
        (← differentiateTo depth name operand).mul (.number (.int factor) inner)
      let rightProduct ←
        operand.mul (← differentiateTo depth name (.number (.int factor) inner))
      next leftProduct rightProduct).Ensures (fun _ => True) condition := by
  have literal : (Expr.number (.int factor) inner).HasShape false := .number
  refine .bind slope fun _ shape => .bind (shape.mul literal)
    fun _ leftProduct => .bind (differentiateTo_int enough) ?_
  rw [Bool.or_false] at leftProduct
  rintro _ rfl
  exact .bind formula.mul_zero_shape fun _ rightProduct => continues _ _ leftProduct rightProduct

/-- Without the variable the derivative is zero, and else it follows the rule of the
operator. -/
theorem arith_shape (arrays : Bool) {depth : Nat}
    (enough : (Expr.arith op left right mark).size ≤ depth)
    (rule : ∀ rest, left.size ≤ rest → right.size ≤ rest →
      (differentiateArith (differentiateTo rest name) name (.arith op left right mark) op
        left right).Ensures (fun _ => True) (HasShape arrays)) :
    (differentiateTo depth name (.arith op left right mark)).Ensures (fun _ => True)
      (HasShape ((Expr.arith op left right mark).containsVariable name && arrays)) := by
  obtain ⟨rest, rfl⟩ := fuel_eq_succ enough
  rw [size_arith] at enough
  simp only [differentiateTo, differentiateNode]
  split
  · exact .pure .number
  · rename_i mentions
    rw [Bool.not_eq_true', Bool.not_eq_false] at mentions
    rw [mentions, Bool.true_and]
    exact rule rest (by omega) (by omega)

/-- The derivative of a formula is a number or an error unless the formula keeps its
shape, and then it may also be an array. -/
theorem differentiateTo_shape (formula : ArrayFormula count tree) {depth : Nat}
    (enough : tree.size ≤ depth) :
    (differentiateTo depth name tree).Ensures (fun _ => True)
      (HasShape (tree.keepsShape name)) := by
  induction formula generalizing depth with
  | literal _ _ =>
      obtain ⟨rest, rfl⟩ := fuel_eq_succ enough
      exact forEach_isArray
  | @neg operand mark _ ih =>
      obtain ⟨rest, rfl⟩ := fuel_eq_succ enough
      rw [size_unary] at enough
      simp only [differentiateTo, differentiateNode]
      split
      · exact .pure .number
      · rename_i mentions
        rw [Bool.not_eq_true', Bool.not_eq_false] at mentions
        rw [keepsShape, mentions, Bool.true_and]
        have operandEnough : operand.size ≤ rest := by omega
        exact .bind (ih operandEnough) fun _ shape => shape.neg
  | add _ _ leftIH rightIH =>
      rw [keepsShape, Bool.and_assoc]
      exact arith_shape _ enough fun rest leftEnough rightEnough =>
        .bind (leftIH leftEnough) fun _ leftShape => .bind (rightIH rightEnough) fun _ rightShape =>
          leftShape.sum (.inl rfl) rightShape
  | sub _ _ leftIH rightIH =>
      rw [keepsShape, Bool.and_assoc]
      exact arith_shape _ enough fun rest leftEnough rightEnough =>
        .bind (leftIH leftEnough) fun _ leftShape => .bind (rightIH rightEnough) fun _ rightShape =>
          leftShape.sum (.inr rfl) rightShape
  | @scale factor operand inner mark _ operandFormula ih =>
      have literal : (Expr.number (.int factor) inner).HasShape false := .number
      refine arith_shape operand.isArray enough fun rest leftEnough rightEnough =>
        .bind (differentiateTo_int leftEnough) ?_
      rintro _ rfl
      refine .bind operandFormula.zero_mul_shape fun _ leftProduct =>
        .bind (ih rightEnough) fun _ slope =>
          .bind (literal.mul slope) fun _ rightProduct =>
            (leftProduct.sum (.inl rfl) rightProduct).mono fun _ shape => shape.mono ?_
      exact fun both => (Bool.and_eq_true_iff.mp both).1
  | @mul factor operand inner mark operandFormula _ ih =>
      have isArray : (operand.isArray || (Expr.number (.int factor) inner).isArray) =
          operand.isArray := Bool.or_false _
      rw [keepsShape, isArray]
      refine arith_shape operand.isArray enough fun rest leftEnough rightEnough =>
        operandFormula.products_shape (ih leftEnough) rightEnough
          fun _ _ leftProduct rightProduct =>
            (leftProduct.sum (.inl rfl) rightProduct).mono fun _ shape => shape.mono ?_
      exact fun both => (Bool.and_eq_true_iff.mp both).2
  | @div divisor operand inner mark operandFormula _ ih =>
      refine arith_shape operand.isArray enough fun rest leftEnough rightEnough =>
        operandFormula.products_shape (ih leftEnough) rightEnough
          fun _ _ leftProduct rightProduct =>
            .bind (leftProduct.sum (.inr rfl) rightProduct) fun _ numerator => ?_
      have square : ((Expr.number (.int divisor) inner).pow (.int 2)).Ensures (fun _ => True)
          (HasShape false) := by
        have literal : (Expr.number (.int divisor) inner).HasShape false := .number
        have two : (Expr.int 2).HasShape false := .number
        exact literal.scalars two
      refine .bind square fun _ denominator =>
        (numerator.div denominator).mono fun _ shape => shape.mono ?_
      exact fun both => (Bool.and_eq_true_iff.mp both).2

theorem isRationalFunction_component (formula : ArrayFormula count tree) {index : Nat}
    (within : index < count) : (tree.component index).isRationalFunction = true := by
  induction formula with
  | @literal items mark length rational =>
      have found : items[index]? = some items[index] := List.getElem?_eq_getElem (length ▸ within)
      rw [component, found]
      exact rational _ (List.getElem_mem _)
  | neg _ ih => exact ih
  | add _ _ leftIH rightIH => exact Bool.and_eq_true_iff.mpr ⟨leftIH, rightIH⟩
  | sub _ _ leftIH rightIH => exact Bool.and_eq_true_iff.mpr ⟨leftIH, rightIH⟩
  | scale inRange _ ih => exact Bool.and_eq_true_iff.mpr ⟨decide_eq_true inRange, ih⟩
  | mul _ inRange ih => exact Bool.and_eq_true_iff.mpr ⟨ih, decide_eq_true inRange⟩
  | div _ inRange ih => exact Bool.and_eq_true_iff.mpr ⟨ih, decide_eq_true inRange⟩

end ArrayFormula

/-! ## Differentiation -/

theorem le_depthFor (size : Nat) : size ≤ depthFor size := Expr.le_callDepth size

/-- Numbers and errors are final. -/
theorem Expr.HasShape.evaluateTo {derivative : Expr} (shape : derivative.HasShape false)
    (controller : Option Controller) (fuel : Nat) :
    Expr.evaluateTo controller (fuel + 1) derivative = pure derivative := by
  cases derivative with
  | number | error => rfl
  | _ => rcases shape with ⟨⟨⟩, _⟩ | ⟨⟨⟩⟩ | ⟨⟨⟩⟩

/-- The derivative of a formula over arrays that keeps its shape evaluates, where all
components are defined and numbers stay exact, to the array of the derivatives of the
components.  The derivative of any other formula is a number or an error, in whatever
scope it is evaluated. -/
theorem array_derivative_by_component (count : Nat) (tree : Expr)
    (formula : ArrayFormula count tree) (name : String) (scope : Scope)
    (controller : Option Controller) (random : RandomSource) (start marks : Nat) :
    let derivative := (tree.differentiate name).value start
    (tree.keepsShape name = true → ∀ valuation : String → Option ℚ,
      (∀ index < count, ((tree.component index).denote valuation).isSome = true) →
      scope.Binds valuation →
      (∀ step ∈ (tree.differentiate name).steps start, step.staysExact = true) →
      ∀ fuel, derivative.size ≤ fuel → ∃ result state,
        Expr.evaluate? fuel controller scope random marks derivative = some (result, state) ∧
          ((∀ step ∈ state.trace, step.staysInRange = true) →
            ∃ items mark, result = .array items mark ∧ items.length = count ∧
              ∀ index item, items[index]? = some item → ∃ number inner slope,
                item = .number number inner ∧ number.toRatio? = some slope ∧
                  ((tree.component index).denote (perturbed valuation name)).map
                    TrivSqZeroExt.snd = some slope)) ∧
    (tree.keepsShape name = false →
      (derivative.isNumber = true ∨ derivative.isError = true) ∧
        ∀ fuel, ∃ state, Expr.evaluate? (fuel + 1) controller scope random marks derivative =
          some (derivative, state)) := by
  intro derivative
  have ample : tree.size ≤ depthFor tree.size := le_depthFor tree.size
  constructor
  · intro keeps valuation defined binds exact fuel enough
    have means (index : Nat) (within : index < count) :
        ∃ value, Means (.rationals valuation) (tree.component index) value := by
      obtain ⟨value, denotes⟩ := Option.isSome_iff_exists.mp (defined index within)
      exact ⟨value, means_rationals_iff.mpr
        ⟨formula.isRationalFunction_component within, denotes⟩⟩
    obtain ⟨duals, derives⟩ := formula.exists_derivesVector keeps means
    have vector := derives.computes _ ample start exact
    obtain ⟨result, state, taken, run, _, steps, holds⟩ :=
      vector.evaluateTo_finishes controller binds enough
        (.start scope random marks) rfl
    refine ⟨result, state, run, fun admitted => ?_⟩
    obtain ⟨items, mark, rfl, length, numbers⟩ := holds fun step member => admitted step (by
      rw [EvalState.trace, List.mem_reverse, steps]
      exact List.mem_append_left _ member)
    refine ⟨items, mark, rfl, length, fun index item found => ?_⟩
    obtain ⟨number, inner, rfl, ratio⟩ := numbers index item found
    have within : index < count := length ▸ (List.getElem?_eq_some_iff.mp found).1
    exact ⟨number, inner, _, rfl, ratio, by rw [derives.denotes index within]; rfl⟩
  · intro collapses
    have shape : derivative.HasShape false := by
      have shape : derivative.HasShape (tree.keepsShape name) :=
        formula.differentiateTo_shape ample start fun _ _ => trivial
      rwa [collapses] at shape
    have noArray : derivative.isNumber = true ∨ derivative.isError = true :=
      shape.resolve_left fun both => absurd both.1 Bool.false_ne_true
    refine ⟨noArray, fun fuel => ⟨.start scope random marks, ?_⟩⟩
    rw [Expr.evaluate?, shape.evaluateTo]
    rfl

/-- The derivative of `[x * x, y] * 3 - [x, 2] / 2` where `x` is two and `y` is five. -/
theorem array_derivative_of_difference :
    let x : Expr := .var "x"
    let y : Expr := .var "y"
    let tripled : Expr := .arith .mul (.array [.arith .mul x x, y]) (.int 3)
    let halved : Expr := .arith .div (.array [x, .int 2]) (.int 2)
    let tree : Expr := .arith .sub tripled halved
    let scope := Scope.ofBindings [("x", .int 2), ("y", .int 5)]
    let derivative := (tree.differentiate "x").value 0
    (ArrayFormula 2 tree ∧ tree.keepsShape "x" = true) ∧
      ∃ (items : List Expr) (mark : Mark) (state : EvalState),
        Expr.evaluate? 40 none scope (.ofSeed 1) 0 derivative = some (.array items mark, state) ∧
          items.length = 2 ∧ ∀ (index : Nat) (item : Expr), items[index]? = some item →
            ∃ number inner slope, item = .number number inner ∧
              number.toRatio? = some slope ∧ ([23 / 2, 0] : List ℚ)[index]? = some slope := by
  intro x y tripled halved tree scope derivative
  have formula : ArrayFormula 2 tree :=
    .sub (.mul (.literal rfl (by decide)) (by decide)) (.div (.literal rfl (by decide)) (by decide))
  have keeps : tree.keepsShape "x" = true := by decide +kernel
  let point : String → Option ℚ := fun name =>
    if name = "x" then some 2 else if name = "y" then some 5 else none
  have binds : scope.Binds point := by
    intro name value found
    by_cases isX : name = "x"
    · subst isX
      cases found
      exact ⟨.int 2, _, rfl, rfl, show InRange 2 by decide⟩
    · by_cases isY : name = "y"
      · subst isY
        cases found
        exact ⟨.int 5, _, rfl, rfl, show InRange 5 by decide⟩
      · simp [point, isX, isY] at found
  have slopes : ∀ index < 2, ((tree.component index).denote (perturbed point "x")).map
      TrivSqZeroExt.snd = ([23 / 2, 0] : List ℚ)[index]? := by decide +kernel
  have defined : ∀ index < 2, ((tree.component index).denote point).isSome = true := by
    decide +kernel
  have exact : ∀ step ∈ (tree.differentiate "x").steps 0, step.staysExact = true := by
    decide +kernel
  have evaluated : (Expr.evaluate? 40 none scope (.ofSeed 1) 0 derivative).all
      (·.2.trace.all Step.staysInRange) = true := by decide +kernel
  obtain ⟨result, state, run, holds⟩ := (array_derivative_by_component 2 tree formula "x" scope none
    (.ofSeed 1) 0 0).1 keeps point defined binds exact 40 (by decide +kernel)
  rw [run, Option.all_some, List.all_eq_true] at evaluated
  obtain ⟨items, mark, rfl, length, numbers⟩ := holds evaluated
  refine ⟨⟨formula, keeps⟩, items, mark, state, run, length, fun index item found => ?_⟩
  obtain ⟨number, inner, slope, isNumber, ratio, slopeEq⟩ := numbers index item found
  have within : index < 2 := length ▸ (List.getElem?_eq_some_iff.mp found).1
  exact ⟨number, inner, slope, isNumber, ratio, (slopes index within).symm.trans slopeEq⟩

/-- The derivative of `([x] + [y]) * 2` has the value two in its only component where `x`
and `y` are one, but what differentiation yields is an error. -/
theorem scaled_sum_of_arrays_loses_derivative :
    let x : Expr := .var "x"
    let y : Expr := .var "y"
    let tree : Expr := .arith .mul (.arith .add (.array [x]) (.array [y])) (.int 2)
    let scope := Scope.ofBindings [("x", .int 1), ("y", .int 1)]
    let derivative := (tree.differentiate "x").value 0
    ArrayFormula 1 tree ∧
      ((tree.component 0).denote (perturbed (fun _ => some 1) "x")).map TrivSqZeroExt.snd =
        some (2 : ℚ) ∧
      (∀ step ∈ (tree.differentiate "x").steps 0, step.staysExact = true) ∧
      (Expr.evaluate? 20 none scope (.ofSeed 1) 0 derivative).any
        (fun (result, state) => result.faultKind? = some .typeMismatch && result.asArray?.isNone &&
          state.trace.all Step.staysExact) = true := by
  intro x y tree scope derivative
  exact ⟨.mul (.add (.literal rfl (by decide)) (.literal rfl (by decide))) (by decide),
    by decide +kernel, by decide +kernel, by decide +kernel⟩

end SymbolicAlgebra
