import SymbolicAlgebra.Derivative
import SymbolicAlgebra.Pause
import SymbolicAlgebra.Proofs.Tensors
import SymbolicAlgebra.Proofs.Unmarked
import SymbolicAlgebra.Solve

/-!
# Properties that operations hand on

The operators and functions of the catalogue take their operands apart at plain
nodes only, and build plain nodes over the parts.  A property that a plain node
has exactly when its children have it, and that every leaf has which is no
variable, is therefore handed on from the operands of an operation to its result.

Loops, assignments, derivatives and solutions are not plain: no operation looks
inside them, and the property may say of them what it likes.
-/

namespace SymbolicAlgebra

namespace Expr

/-- An array, an operator, a function other than a derivative or a solution, a
conditional or a pause. -/
def isPlain : Expr → Bool
  | .array _ _ | .unary _ _ _ | .arith _ _ _ _ | .relation _ _ _ _ | .connective _ _ _ _
  | .call _ _ _ | .call₂ .max _ _ _ | .call₂ .min _ _ _ | .conditional _ _ _ _
  | .pause _ _ => true
  | _ => false

/-- A loop, a sum, a pause or a list of random numbers, whose value may depend on the
controller. -/
def isGate : Expr → Bool
  | .whileLoop _ _ _ | .forLoop _ _ _ _ _ | .summation _ _ _ _ _ | .pause _ _
  | .call .randList _ _ => true
  | _ => false

theorem isLeaf_of_isPlain {tree : Expr} (plain : tree.isPlain = true) : tree.isLeaf = false := by
  cases tree <;> first | rfl | cases plain

theorem negationAll_eq (items : List Expr) :
    negationAll items = Marking.all (items.map negation) := by
  induction items with
  | nil => rfl
  | cons item items ih =>
      rw [negationAll, ih]
      rfl

end Expr

theorem mapFunctionAll_eq (function : UnaryFunction) (items : List Expr) :
    mapFunctionAll function items = Marking.all (items.map (mapFunction function)) := by
  induction items with
  | nil => rfl
  | cons item items ih =>
      rw [mapFunctionAll, ih]
      rfl

theorem Marking.Ensures.all {Item Result : Type} {compute : Item → Marking Result}
    {condition : Result → Prop} {items : List Item}
    (each : ∀ item ∈ items, (compute item).Ensures condition) :
    (Marking.all (items.map compute)).Ensures (∀ result ∈ ·, condition result) := by
  induction items with
  | nil => exact .pure (List.forall_mem_nil _)
  | cons item items ih =>
      rw [List.forall_mem_cons] at each
      exact .bind each.1 fun _ holds => .bind (ih each.2) fun _ rest =>
        .pure (List.forall_mem_cons.mpr ⟨holds, rest⟩)

open SymbolicAlgebra.Expr

/-- A property that plain nodes share with their children and that constants and
errors have.  Unless gates are included, it may say of pauses and of lists of random
numbers what it likes. -/
structure Composed (gates : Bool) (Holds : Expr → Prop) : Prop where
  value : ∀ {tree : Expr}, tree.isLeaf = true → tree.asVar? = none → Holds tree
  node : ∀ tree : Expr, tree.isPlain = true → (!tree.isGate || gates) = true →
    (Holds tree ↔ ∀ child ∈ tree.children, Holds child)

namespace Composed

variable {gates : Bool} {Holds : Expr → Prop} {tree left right : Expr} {items : List Expr}

/-! ## Nodes -/

section Nodes

variable {mark : Mark}

theorem array (composed : Composed gates Holds) :
    Holds (.array items mark) ↔ ∀ item ∈ items, Holds item :=
  composed.node _ rfl rfl

theorem unary (composed : Composed gates Holds) {op : UnaryOp} :
    Holds (.unary op tree mark) ↔ Holds tree := by
  simpa [children] using composed.node (.unary op tree mark) rfl rfl

theorem arith (composed : Composed gates Holds) {op : ArithOp} :
    Holds (.arith op left right mark) ↔ Holds left ∧ Holds right := by
  simpa [children] using composed.node (.arith op left right mark) rfl rfl

theorem relation (composed : Composed gates Holds) {comparison : Relation} :
    Holds (.relation comparison left right mark) ↔ Holds left ∧ Holds right := by
  simpa [children] using composed.node (.relation comparison left right mark) rfl rfl

theorem connective (composed : Composed gates Holds) {link : Connective} :
    Holds (.connective link left right mark) ↔ Holds left ∧ Holds right := by
  simpa [children] using composed.node (.connective link left right mark) rfl rfl

theorem call (composed : Composed gates Holds) {function : UnaryFunction}
    (admitted : (function != .randList || gates) = true) :
    Holds (.call function tree mark) ↔ Holds tree := by
  have notClosed : (!(Expr.call function tree mark).isGate || gates) = true := by
    cases function <;> first | rfl | exact admitted
  simpa [children] using composed.node (.call function tree mark) rfl notClosed

theorem conditional (composed : Composed gates Holds) {test consequence alternative : Expr} :
    Holds (.conditional test consequence alternative mark) ↔
      Holds test ∧ Holds consequence ∧ Holds alternative := by
  simpa [children] using composed.node (.conditional test consequence alternative mark) rfl rfl

theorem number (composed : Composed gates Holds) {value : Number} : Holds (.number value mark) :=
  composed.value rfl rfl

theorem error (composed : Composed gates Holds) {fault : Fault} : Holds (.error fault mark) :=
  composed.value rfl rfl

theorem of_isError (composed : Composed gates Holds) (isError : tree.isError = true) :
    Holds tree := by
  cases tree <;> first | exact composed.value rfl rfl | cases isError

end Nodes

/-! ## Operators -/

section Operators

/-- Arithmetic hands the property on in every run. -/
theorem inherited (composed : Composed gates Holds) : Inherited (fun _ => True) Holds where
  arith := composed.arith
  neg := composed.unary
  tangent holds := (composed.call rfl).mpr ((composed.call rfl).mp holds)
  int _ := composed.number
  numeric _ _ _ := composed.number
  undefined _ _ := composed.number
  items := composed.array.mp
  array _ := composed.array.mpr
  text _ _ := composed.value rfl rfl
  fault _ _ _ := composed.error

theorem arithmetic_keeps (composed : Composed gates Holds) {op : ArithOp} (leftHolds : Holds left)
    (rightHolds : Holds right) : (arithmetic op left right).Ensures (fun _ => True) Holds :=
  (composed.inherited.ofDepth_keeps _).binary leftHolds rightHolds

theorem neg_keeps (composed : Composed gates Holds) (holds : Holds tree) :
    tree.neg.Ensures (fun _ => True) Holds :=
  (composed.inherited.ofDepth_keeps _).negate holds

theorem of_firstError? (composed : Composed gates Holds) {fault : Expr}
    (found : firstError? left right = some fault) : Holds fault :=
  composed.of_isError (firstError?_eq_some found).1

theorem negation_keeps (composed : Composed gates Holds) (holds : Holds tree) :
    tree.negation.Ensures Holds := by
  have kept (operand : Expr) (holds : Holds operand) :
      (if operand.isError then pure operand
        else if operand.isConstant then make (.typeMismatch "not expects a boolean")
        else make (.unary .not operand) : Marking Expr).Ensures Holds := by
    split
    · exact .pure holds
    · split
      · exact .make fun _ => composed.error
      · exact .make fun _ => composed.unary.mpr holds
  induction tree using induction_children with
  | leaf tree isLeaf =>
      unfold negation
      split
      · exact .make fun _ => composed.value rfl rfl
      · cases isLeaf
      · cases isLeaf
      · exact kept _ holds
  | node tree inner ih =>
      unfold negation
      split
      · cases inner
      · rw [negationAll_eq]
        rw [composed.array] at holds
        exact .bind (.all fun item member => ih item member (holds item member))
          fun _ results => .make fun _ => composed.array.mpr results
      · exact .pure (composed.unary.mp holds)
      · exact kept _ holds

theorem compareBy_keeps (composed : Composed gates Holds) {comparison : Relation}
    (leftHolds : Holds left) (rightHolds : Holds right) :
    (compareBy comparison left right).Ensures Holds := by
  have decided (answer : Bool) : (make (.bool answer)).Ensures Holds :=
    .make fun _ => composed.value rfl rfl
  have refused (message : String) : (make (.typeMismatch message)).Ensures Holds :=
    .make fun _ => composed.error
  unfold compareBy
  split
  · exact .pure (composed.of_firstError? ‹_›)
  split
  · unfold compareNumbers
    split
    · exact decided _
    · split
      · exact decided _
      · exact refused _
  · unfold compareTrees
    split
    · exact decided _
    · split
      · split
        · exact decided _
        · exact refused _
      · split
        · exact decided _
        · exact .make fun _ => composed.relation.mpr ⟨leftHolds, rightHolds⟩

theorem connect_keeps (composed : Composed gates Holds) {link : Connective}
    (leftHolds : Holds left) (rightHolds : Holds right) :
    (connect link left right).Ensures Holds := by
  unfold connect
  split
  · exact .pure (composed.of_firstError? ‹_›)
  split
  · exact .make fun _ => composed.value rfl rfl
  · unfold connectMixed
    split
    · exact .make fun _ => composed.value rfl rfl
    split
    · exact .pure rightHolds
    split
    · exact .pure leftHolds
    split
    · exact .make fun _ => composed.error
    · exact .make fun _ => composed.connective.mpr ⟨leftHolds, rightHolds⟩

end Operators

/-! ## Functions -/

section Functions

variable {function : UnaryFunction}

theorem onNumber_keeps (composed : Composed gates Holds) (number : Number) :
    (function.onNumber number).Ensures Holds := by
  refine (function.onNumber_ensures number).mono fun result outcome => ?_
  rcases outcome with isNumber | isError
  · cases result <;> first | exact composed.number | cases isNumber
  · exact composed.of_isError isError

theorem onSymbolic_keeps (composed : Composed gates Holds)
    (admitted : (function != .randList || gates) = true) (holds : Holds tree) :
    (function.onSymbolic tree).Ensures Holds := by
  unfold UnaryFunction.onSymbolic
  split
  · exact .pure ((composed.call rfl).mp holds)
  · exact .pure ((composed.call rfl).mp holds)
  · exact .make fun _ => (composed.call rfl).mpr (composed.arith.mp holds).1
  · exact .make fun _ => (composed.call rfl).mpr (composed.unary.mp holds)
  · exact .pure holds
  · exact .make fun _ => (composed.call admitted).mpr holds

theorem mapFunction_keeps (composed : Composed gates Holds)
    (admitted : (function != .randList || gates) = true) (holds : Holds tree) :
    (mapFunction function tree).Ensures Holds := by
  have scalar {argument : Expr} (notArray : argument.asArray? = none) (holds : Holds argument) :
      (mapFunction function argument).Ensures Holds := by
    unfold mapFunction
    split
    · cases notArray
    · split
      · exact composed.onNumber_keeps _
      · split
        · exact .make fun _ => composed.error
        · exact composed.onSymbolic_keeps admitted holds
  induction tree using induction_children with
  | leaf tree isLeaf =>
      refine scalar ?_ holds
      cases tree with
      | array => cases isLeaf
      | _ => rfl
  | node tree inner ih =>
      cases tree with
      | array items mark =>
          rw [mapFunction, mapFunctionAll_eq]
          rw [composed.array] at holds
          exact .bind (.all fun item member => ih item member (holds item member)) fun _ results =>
            .make fun _ => composed.array.mpr results
      | _ => exact scalar rfl holds

theorem addSquares_keeps (composed : Composed gates Holds) {total : Expr} (totalHolds : Holds total)
    (hold : ∀ item ∈ items, Holds item) :
    (addSquares total items).Ensures (fun _ => True) Holds := by
  induction items generalizing total with
  | nil => exact .pure totalHolds
  | cons item items ih =>
      rw [List.forall_mem_cons] at hold
      have square : (squaredMagnitude item).Ensures (fun _ => True) Holds := by
        unfold squaredMagnitude
        split
        · exact .bind (.make fun _ => composed.number) fun _ magnitude =>
            composed.arithmetic_keeps magnitude magnitude
        · exact composed.arithmetic_keeps hold.1 composed.number
      exact .bind square fun _ squareHolds =>
        .bind (composed.arithmetic_keeps totalHolds squareHolds) fun _ sumHolds =>
          ih sumHolds hold.2

theorem euclideanNorm_keeps (composed : Composed gates Holds) (holds : Holds tree) :
    (euclideanNorm tree).Ensures (fun _ => True) Holds := by
  unfold euclideanNorm
  split
  · rename_i items view
    obtain ⟨mark, rfl⟩ := eq_of_asArray? view
    refine .bind (composed.addSquares_keeps composed.number (composed.array.mp holds))
      fun total totalHolds => .ofMarking ?_
    unfold rootOf
    split
    · exact .pure totalHolds
    · exact composed.mapFunction_keeps rfl totalHolds
  · exact .ofMarking (composed.mapFunction_keeps rfl holds)

theorem multiplyEntries_keeps (composed : Composed gates Holds) {product : Expr}
    {entries : List (List Expr × Nat)} (productHolds : Holds product)
    (hold : ∀ entry ∈ entries, ∀ cell ∈ entry.1, Holds cell) :
    (multiplyEntries product entries).Ensures (fun _ => True) Holds := by
  induction entries generalizing product with
  | nil => exact .pure productHolds
  | cons entry entries ih =>
      rw [List.forall_mem_cons] at hold
      have cellHolds : Holds (entry.1.getD entry.2 (.int 0)) := by
        rw [List.getD_eq_getElem?_getD]
        cases found : entry.1[entry.2]? with
        | none => exact composed.number
        | some cell => exact hold.1 cell (List.mem_of_getElem? found)
      exact .bind (composed.arithmetic_keeps productHolds cellHolds) fun _ next => ih next hold.2

theorem addProducts_keeps (composed : Composed gates Holds) {rows : List (List Expr)}
    (hold : ∀ row ∈ rows, ∀ cell ∈ row, Holds cell) {total : Expr} (totalHolds : Holds total)
    (permutations : List Permutation) :
    (addProducts rows total permutations).Ensures (fun _ => True) Holds := by
  induction permutations generalizing total with
  | nil => exact .pure totalHolds
  | cons permutation rest ih =>
      have cells : ∀ entry ∈ rows.zip permutation.indices, ∀ cell ∈ entry.1, Holds cell :=
        fun entry member => hold entry.1 (List.of_mem_zip member).1
      exact .bind (composed.multiplyEntries_keeps composed.number cells) fun _ productHolds =>
        .bind (composed.arithmetic_keeps totalHolds productHolds) fun _ sumHolds => ih sumHolds

theorem of_squareRows? (composed : Composed gates Holds) {size : Nat} {rows : List Expr}
    {matrix : List (List Expr)} (hold : ∀ row ∈ rows, Holds row)
    (square : squareRows? size rows = some matrix) : ∀ row ∈ matrix, ∀ cell ∈ row, Holds cell := by
  fun_induction squareRows? size rows generalizing matrix with
  | case1 =>
      obtain rfl := Option.some.inj square
      exact List.forall_mem_nil _
  | case2 cells mark rows _ ih =>
      rw [List.forall_mem_cons] at hold
      obtain ⟨rest, found, rfl⟩ := Option.map_eq_some_iff.mp square
      exact List.forall_mem_cons.mpr ⟨composed.array.mp hold.1, ih hold.2 found⟩
  | case3 => contradiction
  | case4 => contradiction

theorem determinant_keeps (composed : Composed gates Holds) (holds : Holds tree) :
    (determinant tree).Ensures (fun _ => True) Holds := by
  unfold determinant
  split
  · exact .ofMarking (composed.mapFunction_keeps rfl holds)
  · rename_i rows view
    obtain ⟨mark, rfl⟩ := eq_of_asArray? view
    dsimp only
    split
    · exact .make fun _ => composed.error
    · split
      · rename_i matrix square
        exact composed.addProducts_keeps (composed.of_squareRows? (composed.array.mp holds) square)
          composed.number _
      · exact .make fun _ => composed.error

/-- A function of one argument hands the property on. -/
theorem apply_keeps (composed : Composed gates Holds)
    (admitted : (function != .randList || gates) = true) (holds : Holds tree) :
    (function.apply tree).Ensures (fun _ => True) Holds := by
  unfold UnaryFunction.apply
  split
  · exact .pure holds
  split
  · exact composed.determinant_keeps holds
  · exact composed.euclideanNorm_keeps holds
  · exact .bind .step fun _ _ => .make fun _ => (composed.call admitted).mpr holds
  · exact .ofMarking (composed.mapFunction_keeps admitted holds)

theorem extremum_keeps (composed : Composed gates Holds) {function : BinaryFunction}
    {comparison : Relation} (plain : ∀ mark, (Expr.call₂ function left right mark).isPlain = true)
    (leftHolds : Holds left) (rightHolds : Holds right) :
    (extremum function comparison left right).Ensures Holds := by
  have kept : (make (.call₂ function left right)).Ensures Holds := by
    refine .make fun mark => (composed.node _ (plain mark) rfl).mpr ?_
    exact List.forall_mem_cons.mpr ⟨leftHolds, List.forall_mem_singleton.mpr rightHolds⟩
  refine .bind (composed.compareBy_keeps leftHolds rightHolds) fun decided decidedHolds => ?_
  split
  · exact .pure leftHolds
  · split
    · exact .pure rightHolds
    · exact kept
  · split
    · exact .pure decidedHolds
    · exact kept

theorem applyOne_keeps (composed : Composed gates Holds)
    (admitted : (function != .randList || gates) = true) (holds : Holds tree) :
    (Function.apply (.unary function) [tree]).Ensures (fun _ => True) Holds := by
  unfold Function.apply
  cases found : [tree].find? isError with
  | some fault => exact .pure (composed.of_isError (List.find?_some found))
  | none => exact composed.apply_keeps admitted holds

/-- The greater and the lesser of two values have the property. -/
theorem applyTwo_keeps (composed : Composed gates Holds) {function : BinaryFunction}
    (plain : ∀ mark, (Expr.call₂ function left right mark).isPlain = true)
    (leftHolds : Holds left) (rightHolds : Holds right) :
    (Function.apply (.binary function) [left, right]).Ensures (fun _ => True) Holds := by
  unfold Function.apply
  cases found : [left, right].find? isError with
  | some fault => exact .pure (composed.of_isError (List.find?_some found))
  | none =>
      refine .ofMarking ?_
      unfold BinaryFunction.apply
      split
      · exact .pure (composed.of_firstError? ‹_›)
      · cases function with
        | max | min => exact composed.extremum_keeps plain leftHolds rightHolds
        | diff | solve => cases plain .unset

theorem pauseFor_keeps (composed : Composed gates Holds) {controller : Option Controller}
    {interrupted : Bool} (holds : Holds tree) :
    (pauseFor controller interrupted tree).Ensures (fun _ => True) Holds := by
  unfold pauseFor
  split
  · exact .pure holds
  split
  · exact .make fun _ => composed.error
  split
  · split
    · exact .bind .step fun _ _ => .make fun _ => composed.error
    · exact .make fun _ => composed.value rfl rfl
  · split
    · exact .make fun _ => composed.error
    · exact .make fun _ => composed.value rfl rfl

end Functions

/-! ## Derivatives -/

section Derivatives

variable {derive : Expr → Traced Expr} {name : String} {node : Expr}

/-- The rules for operators hand the property on from the derivatives of the
operands and from the operands. -/
theorem differentiateArith_keeps (composed : Composed gates Holds)
    (derives : ∀ tree, Holds tree → (derive tree).Ensures (fun _ => True) Holds)
    {op : ArithOp} (nodeHolds : Holds node) (leftHolds : Holds left) (rightHolds : Holds right) :
    (differentiateArith derive name node op left right).Ensures (fun _ => True) Holds := by
  have first := derives left leftHolds
  have second := derives right rightHolds
  cases op with
  | add | sub =>
      exact .bind first fun _ firstHolds => .bind second fun _ secondHolds =>
        composed.arithmetic_keeps firstHolds secondHolds
  | mul =>
      exact .bind first fun _ firstHolds =>
        .bind (composed.arithmetic_keeps firstHolds rightHolds) fun _ augend =>
          .bind second fun _ secondHolds =>
            .bind (composed.arithmetic_keeps leftHolds secondHolds) fun _ addend =>
              composed.arithmetic_keeps augend addend
  | div =>
      exact .bind first fun _ firstHolds =>
        .bind (composed.arithmetic_keeps firstHolds rightHolds) fun _ minuend =>
          .bind second fun _ secondHolds =>
            .bind (composed.arithmetic_keeps leftHolds secondHolds) fun _ subtrahend =>
              .bind (composed.arithmetic_keeps minuend subtrahend) fun _ numerator =>
                .bind (composed.arithmetic_keeps rightHolds composed.number) fun _ denominator =>
                  composed.arithmetic_keeps numerator denominator
  | pow =>
      unfold differentiateArith
      dsimp only
      split
      · exact .bind (composed.arithmetic_keeps rightHolds composed.number) fun _ lower =>
          .bind (composed.arithmetic_keeps leftHolds lower) fun _ lowered =>
            .bind (composed.arithmetic_keeps rightHolds lowered) fun _ outer =>
              .bind first fun _ inner => composed.arithmetic_keeps outer inner
      · split
        · exact .bind second fun _ secondHolds => composed.arithmetic_keeps secondHolds nodeHolds
        · exact .bind (composed.apply_keeps rfl leftHolds) fun _ logarithm =>
            .bind (composed.arithmetic_keeps rightHolds logarithm) fun _ exponent =>
              .bind (derives _ exponent) fun _ inner => composed.arithmetic_keeps inner nodeHolds

/-- The chain rule hands the property on, where the unresolved derivative has it
that stands for the derivative of a function without a rule. -/
theorem chainRule_keeps (composed : Composed gates Holds) {function : UnaryFunction}
    {argument inner : Expr} (argumentHolds : Holds argument) (innerHolds : Holds inner)
    (unresolved : function = .sign ∨ function = .fact ∨ function = .det ∨ function = .randList →
      (node.unresolvedDerivative name).Ensures Holds) :
    (chainRule function node argument inner name).Ensures (fun _ => True) Holds := by
  have outer (other : UnaryFunction) (admitted : (other != .randList || gates) = true) :
      (other.apply argument).Ensures (fun _ => True) Holds :=
    composed.apply_keeps admitted argumentHolds
  have times {factor : Expr} (holds : Holds factor) :
      (factor.mul inner).Ensures (fun _ => True) Holds :=
    composed.arithmetic_keeps holds innerHolds
  cases function with
  | sin | sinh | cosh | exp | abs => exact .bind (outer _ rfl) fun _ factor => times factor
  | cos =>
      exact .bind (outer _ rfl) fun _ factor => .bind (composed.neg_keeps factor) fun _ negated =>
        times negated
  | tan | tanh =>
      exact .bind (outer _ rfl) fun _ factor =>
        .bind (composed.arithmetic_keeps factor composed.number) fun _ square =>
          composed.arithmetic_keeps innerHolds square
  | atan =>
      exact .bind (composed.arithmetic_keeps argumentHolds composed.number) fun _ square =>
        .bind (composed.arithmetic_keeps composed.number square) fun _ sum =>
          composed.arithmetic_keeps innerHolds sum
  | ln => exact composed.arithmetic_keeps innerHolds argumentHolds
  | sqrt =>
      exact .bind (outer _ rfl) fun _ root =>
        .bind (composed.arithmetic_keeps composed.number root) fun _ double =>
          composed.arithmetic_keeps innerHolds double
  | norm =>
      exact .bind (times argumentHolds) fun _ scaled => .bind (outer _ rfl) fun _ length =>
        composed.arithmetic_keeps scaled length
  | conj => exact composed.apply_keeps rfl innerHolds
  | sign | fact | det | randList => exact .ofMarking (unresolved (by simp))

end Derivatives

/-! ## Solutions -/

section Solutions

variable {name : String}

theorem dividedBy_keeps (composed : Composed gates Holds) (leftHolds : Holds left)
    (rightHolds : Holds right) : (left.dividedBy right).Ensures (fun _ => True) Holds :=
  .bind .step fun _ _ => composed.arithmetic_keeps leftHolds rightHolds

theorem rootBy_keeps (composed : Composed gates Holds) (leftHolds : Holds left)
    (rightHolds : Holds right) : (rootBy left right).Ensures (fun _ => True) Holds := by
  unfold rootBy
  split
  · exact composed.apply_keeps rfl rightHolds
  · exact .bind (composed.dividedBy_keeps composed.number leftHolds) fun _ inverse =>
      composed.arithmetic_keeps rightHolds inverse

/-- Both sides have the property. -/
def HoldsOfSides (Holds : Expr → Prop) (sides : Expr × Expr) : Prop :=
  Holds sides.1 ∧ Holds sides.2

theorem peelArith_keeps (composed : Composed gates Holds) {op : ArithOp} {first second : Expr}
    (firstHolds : Holds first) (secondHolds : Holds second) (rightHolds : Holds right) :
    (peelArith name op first second right).Ensures (fun _ => True) (HoldsOfSides Holds) := by
  unfold peelArith
  split
  · cases op with
    | add | sub | div =>
        exact .bind (.lift (composed.arithmetic_keeps rightHolds secondHolds)) fun _ inverse =>
          .pure ⟨firstHolds, inverse⟩
    | mul =>
        exact .bind (.lift (composed.dividedBy_keeps rightHolds secondHolds)) fun _ inverse =>
          .pure ⟨firstHolds, inverse⟩
    | pow =>
        exact .bind (.lift (composed.rootBy_keeps secondHolds rightHolds)) fun _ inverse =>
          .pure ⟨firstHolds, inverse⟩
  · split
    · cases op with
      | add =>
          exact .bind (.lift (composed.arithmetic_keeps rightHolds firstHolds)) fun _ inverse =>
            .pure ⟨secondHolds, inverse⟩
      | sub =>
          exact .bind (.lift (composed.arithmetic_keeps firstHolds rightHolds)) fun _ inverse =>
            .pure ⟨secondHolds, inverse⟩
      | mul =>
          exact .bind (.lift (composed.dividedBy_keeps rightHolds firstHolds)) fun _ inverse =>
            .pure ⟨secondHolds, inverse⟩
      | div =>
          exact .bind (.lift (composed.dividedBy_keeps firstHolds rightHolds)) fun _ inverse =>
            .pure ⟨secondHolds, inverse⟩
      | pow => exact .failure
    · exact .failure

theorem peel_keeps (composed : Composed gates Holds) (leftHolds : Holds left)
    (rightHolds : Holds right) :
    (peel name left right).Ensures (fun _ => True) (HoldsOfSides Holds) := by
  have inverse : (inverseStep name left right).Ensures (fun _ => True) (HoldsOfSides Holds) := by
    unfold inverseStep
    split
    · have ⟨firstHolds, secondHolds⟩ := composed.arith.mp leftHolds
      exact composed.peelArith_keeps firstHolds secondHolds rightHolds
    · exact .bind (.lift (composed.neg_keeps rightHolds)) fun _ negated =>
        .pure ⟨composed.unary.mp leftHolds, negated⟩
    · exact .bind (.lift (.ofMarking (composed.negation_keeps rightHolds))) fun _ negated =>
        .pure ⟨composed.unary.mp leftHolds, negated⟩
    · exact .bind (.lift (composed.arithmetic_keeps rightHolds composed.number)) fun _ square =>
        .pure ⟨(composed.call rfl).mp leftHolds, square⟩
    · exact .failure
  exact .bind inverse fun sides hold => .bind (.lift .step) fun _ _ => .pure hold

/-- The solver hands the property on, where equations that it marks as unresolved
have it. -/
theorem solve_keeps (composed : Composed gates Holds)
    (unresolved : ∀ {equation : Expr} {inner outer : Mark}, Holds equation →
      Holds (.call₂ .solve equation (.var name inner) outer))
    (holds : Holds tree) : (tree.solve name).Ensures (fun _ => True) Holds := by
  have refused {equation : Expr} (holds : Holds equation) :
      (equation.unresolvedSolution name).Ensures Holds :=
    fun _ => unresolved holds
  have settled {left right : Expr} (leftHolds : Holds left) (rightHolds : Holds right) :
      (solved name left right).Ensures Holds := by
    refine .bind (.make fun _ => composed.relation.mpr ⟨leftHolds, rightHolds⟩)
      fun equation equationHolds => ?_
    split
    · exact .pure equationHolds
    · exact refused equationHolds
  have isolated (steps : Nat) {left right : Expr} (leftHolds : Holds left)
      (rightHolds : Holds right) :
      (isolate name steps left right).Ensures (fun _ => True) Holds := by
    induction steps generalizing left right with
    | zero => exact .ofMarking (settled leftHolds rightHolds)
    | succ steps ih =>
        rw [isolate]
        split
        · exact .ofMarking (settled leftHolds rightHolds)
        · refine (composed.peel_keeps leftHolds rightHolds).run_match ?_
            (.ofMarking (settled leftHolds rightHolds))
          rintro ⟨rest, inverse⟩ ⟨restHolds, inverseHolds⟩
          dsimp only
          split
          · exact .pure inverseHolds
          · exact ih restHolds inverseHolds
  unfold solve
  split
  · exact .pure holds
  split
  · have ⟨leftHolds, rightHolds⟩ := composed.relation.mp holds
    split
    · exact .ofMarking (refused holds)
    · exact .ofMarking (refused holds)
    · exact isolated _ rightHolds leftHolds
    · exact isolated _ leftHolds rightHolds
  · exact .make fun _ => composed.error

end Solutions

end Composed

end SymbolicAlgebra
