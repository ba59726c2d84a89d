import SymbolicAlgebra.Function.Catalogue
import SymbolicAlgebra.Proofs.Denotation
import SymbolicAlgebra.Proofs.Inheritance
import SymbolicAlgebra.Proofs.Unmarked

/-!
# Tensors

A tensor is a scalar or an array of tensors, all of one rank, in which there may be
errors in place of scalars or arrays.  Operators that fit the ranks of their operands
lead from tensors to tensors: errors are handed on, arrays are worked through element
by element, and scalars are computed.  Functions lead from scalars to scalars.

There are different kinds of scalars.  Numbers allow all operators and functions.
Formulas, with exact numbers and variables, allow the operators as long as numbers
stay exact; a function of a formula may turn out to be a number that is not exact.
-/

namespace SymbolicAlgebra

namespace Expr

variable {tree : Expr}

/-! ## Formulas -/

/-- Exact numbers and variables under arithmetic operators and functions of one
argument. -/
def isFormula : Expr → Bool
  | .number value _ => value.isExact
  | .var _ _ => true
  | .unary .neg operand _ => operand.isFormula
  | .arith _ left right _ => left.isFormula && right.isFormula
  | .call _ argument _ => argument.isFormula
  | _ => false

/-- Arithmetic on formulas yields formulas, as long as numbers stay exact. -/
theorem formula_inherited : Inherited (·.staysExact = true) (·.isFormula = true) where
  arith := by simp [isFormula]
  neg := by simp [isFormula]
  tangent holds := holds
  int _ := rfl
  numeric {operands result} hold noted mark := by
    by_contra inexact
    refine Bool.false_ne_true (noted (List.all_eq_true.mpr fun operand member => ?_) ?_)
    · obtain ⟨_, exact⟩ := hold operand member
      exact exact
    · exact Bool.eq_false_iff.mpr inexact
  undefined admitted := absurd admitted Bool.false_ne_true
  items holds := nomatch holds
  array holds := nomatch holds
  text holds := nomatch holds
  fault {tree _} holds structural := by
    cases tree with
    | array | char | text => contradiction
    | _ => cases structural

theorem asArray?_formula (formula : tree.isFormula = true) : tree.asArray? = none := by
  cases tree with
  | array items mark => contradiction
  | _ => rfl

/-! ## Scalars -/

/-- A variable under functions of one argument. -/
def isSymbol : Expr → Bool
  | .var _ _ => true
  | .call _ argument _ => argument.isSymbol
  | _ => false

theorem isFormula_symbol (symbol : tree.isSymbol = true) : tree.isFormula = true := by
  fun_induction isSymbol tree with
  | case1 => rfl
  | case2 function argument mark ih => exact ih symbol
  | case3 => contradiction

end Expr

/-- The scalars that a tree is made of. -/
inductive Scalars where
  | symbols
  | numbers
  | formulas
  | either

namespace Scalars

/-- The tree is such a scalar. -/
def admits : Scalars → Expr → Bool
  | symbols, tree => tree.isSymbol
  | numbers, tree => tree.isNumber
  | formulas, tree => tree.isFormula
  | either, tree => tree.isNumber || tree.isFormula

/-- Operators lead from such scalars to such scalars. -/
def allowOperators : Scalars → Bool
  | numbers | formulas => true
  | symbols | either => false

/-- Functions lead from such scalars to such scalars.  The value of a function of an
exact number need not be exact. -/
def allowFunctions : Scalars → Bool
  | symbols | numbers | either => true
  | formulas => false

/-- All scalars of the first kind are of the second kind. -/
def within : Scalars → Scalars → Bool
  | symbols, formulas | formulas, either | numbers, either => true
  | _, _ => false

/-- The step does not keep operators from leading to such scalars.  For formulas, a
number must not turn into one that is not exact. -/
def permits : Scalars → Step → Bool
  | symbols, _ | numbers, _ => true
  | formulas, step | either, step => step.staysExact

variable {scalars wider : Scalars} {tree : Expr}

theorem admits_of_within (smaller : scalars.within wider = true)
    (admitted : scalars.admits tree = true) : wider.admits tree = true := by
  fun_cases within scalars wider with
  | case1 => exact Expr.isFormula_symbol admitted
  | case2 => exact Bool.or_eq_true_iff.mpr (.inr admitted)
  | case3 => exact Bool.or_eq_true_iff.mpr (.inl admitted)
  | case4 => simp_all [within]

theorem permits_of_within {step : Step} (smaller : scalars.within wider = true)
    (permitted : wider.permits step = true) : scalars.permits step = true := by
  fun_cases within scalars wider with
  | case1 | case3 => rfl
  | case2 => exact permitted
  | case4 => simp_all [within]

theorem permits_of_staysExact {step : Step} (exact : step.staysExact = true) :
    scalars.permits step = true := by
  cases scalars with
  | symbols | numbers => rfl
  | formulas | either => exact exact

theorem number_or_formula (admitted : scalars.admits tree = true) :
    tree.isNumber = true ∨ tree.isFormula = true := by
  cases scalars with
  | symbols => exact .inr (Expr.isFormula_symbol admitted)
  | numbers => exact .inl admitted
  | formulas => exact .inr admitted
  | either => exact Bool.or_eq_true_iff.mp admitted

theorem asArray?_of_admits (admitted : scalars.admits tree = true) : tree.asArray? = none := by
  rcases number_or_formula admitted with isNumber | formula
  · obtain ⟨number, mark, rfl⟩ := Expr.eq_of_isNumber isNumber
    rfl
  · exact Expr.asArray?_formula formula

end Scalars

/-! ## Tensors -/

/-- A tensor of a rank: a scalar, or an array of tensors of the rank below.  Anywhere
in it there may be an error instead. -/
inductive Tensor (scalars : Scalars) : Nat → Expr → Prop where
  | error {rank : Nat} {tree : Expr} (isError : tree.isError = true) : Tensor scalars rank tree
  | scalar {tree : Expr} (admitted : scalars.admits tree = true) : Tensor scalars 0 tree
  | array {rank : Nat} {items : List Expr} {mark : Mark}
      (tensors : ∀ item ∈ items, Tensor scalars rank item) :
      Tensor scalars (rank + 1) (.array items mark)

/-- The operator applies to operands of these ranks: sums and differences are taken
element by element, in products and quotients the operand of lower rank is spread
over the other one, and exponents are scalars. -/
def ArithOp.fits : ArithOp → Nat → Nat → Bool
  | .add, left, right | .sub, left, right => left = right
  | .mul, _, _ | .div, _, _ => true
  | .pow, _, right => right = 0

namespace Tensor

variable {scalars wider : Scalars} {rank leftRank rightRank : Nat} {op : ArithOp}
  {tree left right operand : Expr} {allowed : Step → Prop} {kernel : Kernel}

theorem mono (tensor : Tensor scalars rank tree) (smaller : scalars.within wider = true) :
    Tensor wider rank tree := by
  induction tensor with
  | error isError => exact .error isError
  | scalar admitted => exact .scalar (Scalars.admits_of_within smaller admitted)
  | array _ ih => exact .array ih

theorem firstError?_eq_none_iff :
    firstError? left right = none ↔ left.isError = false ∧ right.isError = false := by
  unfold firstError?
  cases left.isError <;> cases right.isError <;> simp

/-- An operator hands on the first error among its operands. -/
theorem combine_firstError {fault : Expr} (found : firstError? left right = some fault) :
    (combine kernel op left right).Succeeds allowed (Tensor scalars rank) := by
  rw [combine_of_firstError? found]
  exact .pure (.error (firstError?_eq_some found).1)

theorem combine_numbers {x y : Number} {inner outer : Mark} :
    (combine kernel op (.number x inner) (.number y outer)).Succeeds allowed
      (Tensor .numbers 0) := by
  cases found : firstError? (.number x inner) (.number y outer) with
  | some fault => exact combine_firstError found
  | none =>
      refine .failure_orElse (by rw [found]; rfl) (.orElse ?_)
      simp only [numericRule, Expr.toNumber?]
      split
      · exact .bind (.lift .step) fun _ _ => .lift (.make fun _ => .scalar rfl)
      · exact .lift (.numeric fun _ _ => .scalar rfl)

/-- Scalars that operators do not lead out of. -/
theorem binary_scalars (closed : scalars.allowOperators = true)
    (leftAdmitted : scalars.admits left = true) (rightAdmitted : scalars.admits right = true)
    (depth : Nat) :
    ((Kernel.ofDepth (depth + 1)).binary op left right).Ensures (scalars.permits · = true)
      (Tensor scalars 0) := by
  cases scalars with
  | symbols | either => contradiction
  | numbers =>
      obtain ⟨x, inner, rfl⟩ := Expr.eq_of_isNumber leftAdmitted
      obtain ⟨y, outer, rfl⟩ := Expr.eq_of_isNumber rightAdmitted
      exact combine_numbers.run_match fun _ tensor => .pure tensor
  | formulas =>
      exact ((Expr.formula_inherited.ofDepth_keeps (depth + 1)).binary leftAdmitted
        rightAdmitted).mono fun _ formula => .scalar formula

theorem negate_scalars (closed : scalars.allowOperators = true)
    (admitted : scalars.admits operand = true) (depth : Nat) :
    ((Kernel.ofDepth (depth + 1)).negate operand).Ensures (scalars.permits · = true)
      (Tensor scalars 0) := by
  cases scalars with
  | symbols | either => contradiction
  | numbers =>
      obtain ⟨number, mark, rfl⟩ := Expr.eq_of_isNumber admitted
      change (applyNegation (Kernel.ofDepth depth) _).Ensures _ _
      unfold applyNegation
      split
      · exact .pure (.scalar admitted)
      · exact .numeric fun _ _ => .scalar rfl
  | formulas =>
      exact ((Expr.formula_inherited.ofDepth_keeps (depth + 1)).negate admitted).mono
        fun _ formula => .scalar formula

/-- An operator spread over the elements of an array. -/
theorem spread {Item : Type} {compute : Item → Traced Expr} {items : List Item}
    (ensures : ∀ item ∈ items, (compute item).Ensures allowed (Tensor scalars rank)) :
    (do
      let results ← Traced.forEach compute items
      Expr.make (.array results) : Traced Expr).Ensures allowed (Tensor scalars (rank + 1)) :=
  .bind (.forEach ensures) fun _ tensors => .make fun _ => .array tensors

theorem combine_arrays {condition : Expr → Prop} (noError : firstError? left right = none)
    (noNumbers : left.toNumber? = none ∨ right.toNumber? = none)
    (succeeds : (arrayRule kernel op left right).Succeeds allowed condition) :
    (combine kernel op left right).Succeeds allowed condition := by
  refine .failure_orElse (by rw [noError]; rfl) (.failure_orElse ?_ (.orElse succeeds))
  unfold numericRule
  rcases noNumbers with none | none
  · rw [none]
  · rw [none]
    cases left.toNumber? <;> rfl

/-- The rules for arrays combine tensors when arithmetic below combines their
elements. -/
theorem arrayRule_arrays {lefts rights : List Expr} {inner outer : Mark}
    (fits : op.fits (leftRank + 1) (rightRank + 1) = true)
    (elements : ∀ left ∈ lefts, ∀ right ∈ rights, op.fits leftRank rightRank = true →
      (kernel.binary op left right).Ensures allowed (Tensor scalars (max leftRank rightRank))) :
    (arrayRule kernel op (.array lefts inner) (.array rights outer)).Succeeds allowed
      (Tensor scalars (max leftRank rightRank + 1)) := by
  have notPower : op ≠ .pow := by
    rintro rfl
    contradiction
  have fitsBelow : op.fits leftRank rightRank = true := by
    cases op <;> simp_all [ArithOp.fits]
  simp only [arrayRule, Expr.asArray?, notPower, if_false]
  refine .lift ?_
  unfold elementwise
  split
  · exact .make fun _ => .error rfl
  · refine spread fun pair member => ?_
    obtain ⟨leftMember, rightMember⟩ := List.of_mem_zip member
    exact elements pair.1 leftMember pair.2 rightMember fitsBelow

theorem arrayRule_left {lefts : List Expr} {inner : Mark} (scalar : right.asArray? = none)
    (fits : op.fits (leftRank + 1) 0 = true)
    (elements : ∀ left ∈ lefts, op.fits leftRank 0 = true →
      (kernel.binary op left right).Ensures allowed (Tensor scalars leftRank)) :
    (arrayRule kernel op (.array lefts inner) right).Succeeds allowed
      (Tensor scalars (leftRank + 1)) := by
  unfold arrayRule
  rw [scalar]
  cases op with
  | add | sub => contradiction
  | mul | div | pow => exact .lift (spread fun left member => elements left member rfl)

theorem arrayRule_right {rights : List Expr} {outer : Mark} (scalar : left.asArray? = none)
    (fits : op.fits 0 (rightRank + 1) = true)
    (elements : ∀ right ∈ rights, op.fits 0 rightRank = true →
      (kernel.binary op left right).Ensures allowed (Tensor scalars rightRank)) :
    (arrayRule kernel op left (.array rights outer)).Succeeds allowed
      (Tensor scalars (rightRank + 1)) := by
  unfold arrayRule
  rw [scalar]
  cases op with
  | add | sub | pow => contradiction
  | mul | div => exact .lift (spread fun right member => elements right member rfl)

/-- What a tensor can be apart from an error. -/
theorem scalar_or_array (tensor : Tensor scalars rank tree) (noError : tree.isError = false) :
    (rank = 0 ∧ scalars.admits tree = true) ∨ ∃ below items mark, rank = below + 1 ∧
      tree = .array items mark ∧ ∀ item ∈ items, Tensor scalars below item ∧
        item.size < tree.size := by
  cases tensor with
  | error isError =>
      rw [noError] at isError
      contradiction
  | scalar admitted => exact .inl ⟨rfl, admitted⟩
  | array tensors =>
      exact .inr ⟨_, _, _, rfl, rfl, fun item member =>
        ⟨tensors item member, Expr.size_lt_of_mem_children member⟩⟩

/-- Operators that fit the ranks of two tensors yield a tensor.  Each level of arrays
takes one level of the engine. -/
theorem binary (closed : scalars.allowOperators = true) {depth : Nat}
    (leftTensor : Tensor scalars leftRank left) (rightTensor : Tensor scalars rightRank right)
    (fits : op.fits leftRank rightRank = true) (enough : left.size + right.size ≤ depth) :
    ((Kernel.ofDepth depth).binary op left right).Ensures (scalars.permits · = true)
      (Tensor scalars (max leftRank rightRank)) := by
  induction depth generalizing left right leftRank rightRank with
  | zero =>
      have := left.size_pos
      omega
  | succ depth ih =>
      cases found : firstError? left right with
      | some fault =>
          exact (combine_firstError found).run_match fun _ tensor => .pure tensor
      | none =>
          obtain ⟨leftNone, rightNone⟩ := firstError?_eq_none_iff.mp found
          rcases leftTensor.scalar_or_array leftNone with
            ⟨rfl, leftAdmitted⟩ | ⟨leftRank, lefts, inner, rfl, rfl, leftItems⟩ <;>
          rcases rightTensor.scalar_or_array rightNone with
            ⟨rfl, rightAdmitted⟩ | ⟨rightRank, rights, outer, rfl, rfl, rightItems⟩
          · exact binary_scalars closed leftAdmitted rightAdmitted depth
          · have view := Scalars.asArray?_of_admits leftAdmitted
            rw [Nat.zero_max]
            refine (combine_arrays found (.inr rfl) (arrayRule_right view fits
              fun item member fitsBelow => ?_)).run_match fun _ tensor => .pure tensor
            obtain ⟨tensor, smaller⟩ := rightItems item member
            simpa using ih leftTensor tensor fitsBelow (by omega)
          · have view := Scalars.asArray?_of_admits rightAdmitted
            rw [Nat.max_zero]
            refine (combine_arrays found (.inl rfl) (arrayRule_left view fits
              fun item member fitsBelow => ?_)).run_match fun _ tensor => .pure tensor
            obtain ⟨tensor, smaller⟩ := leftItems item member
            simpa using ih tensor rightTensor fitsBelow (by omega)
          · rw [Nat.succ_max_succ]
            refine (combine_arrays found (.inl rfl) (arrayRule_arrays fits
              fun first firstMember second secondMember fitsBelow => ?_)).run_match
                fun _ tensor => .pure tensor
            obtain ⟨firstTensor, firstSmaller⟩ := leftItems first firstMember
            obtain ⟨secondTensor, secondSmaller⟩ := rightItems second secondMember
            exact ih firstTensor secondTensor fitsBelow (by omega)

theorem negate (closed : scalars.allowOperators = true) {depth : Nat}
    (tensor : Tensor scalars rank operand) (enough : operand.size ≤ depth) :
    ((Kernel.ofDepth depth).negate operand).Ensures (scalars.permits · = true)
      (Tensor scalars rank) := by
  induction depth generalizing operand rank with
  | zero => exact absurd enough (Nat.not_le_of_gt operand.size_pos)
  | succ depth ih =>
      cases tensor with
      | error isError =>
          change (applyNegation (Kernel.ofDepth depth) _).Ensures _ _
          rw [applyNegation, if_pos isError]
          exact .pure (.error isError)
      | scalar admitted => exact negate_scalars closed admitted depth
      | @array rank items mark tensors =>
          refine spread fun item member => ih (tensors item member) ?_
          have smaller : item.size < (Expr.array items mark).size :=
            Expr.size_lt_of_mem_children member
          omega

end Tensor

/-! ## Functions of scalars -/

namespace UnaryFunction

variable {scalars : Scalars} {function : UnaryFunction} {tree : Expr}

theorem onNumber_ensures (function : UnaryFunction) (number : Number) :
    (function.onNumber number).Ensures fun result =>
      result.isNumber = true ∨ result.isError = true := by
  unfold onNumber
  split
  · unfold Expr.ofFactorial
    split
    · exact .pure (.inl rfl)
    · exact .make fun _ => .inl rfl
  · exact .make fun _ => .inl rfl
  · exact .make fun _ => .inr rfl

theorem onSymbolic_formula (formula : tree.isFormula = true) :
    (function.onSymbolic tree).Ensures (·.isFormula = true) := by
  unfold onSymbolic
  split
  · exact .pure formula
  · exact .pure formula
  · exact .make fun _ => (Bool.and_eq_true_iff.mp formula).1
  · exact .make fun _ => formula
  · exact .pure formula
  · exact .make fun _ => formula

theorem onSymbolic_symbol (symbol : tree.isSymbol = true) :
    (function.onSymbolic tree).Ensures (·.isSymbol = true) := by
  unfold onSymbolic
  split
  · exact .pure symbol
  · exact .pure symbol
  · contradiction
  · contradiction
  · exact .pure symbol
  · exact .make fun _ => symbol

/-- A formula that is no number is a symbolic argument. -/
theorem mapFunction_formula (formula : tree.isFormula = true) (symbolic : tree.asNumber? = none) :
    mapFunction function tree = function.onSymbolic tree := by
  cases tree with
  | number value mark => contradiction
  | var | unary | arith | call => rfl
  | _ => contradiction

theorem mapFunction_number {number : Number} {mark : Mark}
    (numbers : ∀ tree, tree.isNumber = true → scalars.admits tree = true) :
    (mapFunction function (.number number mark)).Ensures (Tensor scalars 0) :=
  (function.onNumber_ensures number).mono fun result outcome =>
    outcome.elim (fun isNumber => .scalar (numbers result isNumber)) .error

/-- Functions lead from scalars to scalars, where these allow functions. -/
theorem mapFunction_scalars (closed : scalars.allowFunctions = true)
    (admitted : scalars.admits tree = true) :
    (mapFunction function tree).Ensures (Tensor scalars 0) := by
  cases scalars with
  | formulas => contradiction
  | numbers =>
      obtain ⟨number, mark, rfl⟩ := Expr.eq_of_isNumber admitted
      exact mapFunction_number fun _ isNumber => isNumber
  | symbols =>
      have symbolic : tree.asNumber? = none := by
        cases tree with
        | number => contradiction
        | _ => rfl
      rw [mapFunction_formula (Expr.isFormula_symbol admitted) symbolic]
      exact (onSymbolic_symbol admitted).mono fun _ symbol => .scalar symbol
  | either =>
      cases view : tree.asNumber? with
      | some number =>
          obtain ⟨mark, rfl⟩ := Expr.eq_of_asNumber? view
          exact mapFunction_number fun _ isNumber => Bool.or_eq_true_iff.mpr (.inl isNumber)
      | none =>
          have formula : tree.isFormula = true := by
            simpa [Scalars.admits, Expr.isNumber, view] using admitted
          rw [mapFunction_formula formula view]
          exact (onSymbolic_formula formula).mono fun _ formula =>
            .scalar (Bool.or_eq_true_iff.mpr (.inr formula))

theorem apply_eq_mapFunction (notRandom : function ≠ .randList) (noError : tree.isError = false)
    (scalar : tree.asArray? = none) : function.apply tree = liftM (mapFunction function tree) := by
  cases function <;> simp_all [apply, determinant, euclideanNorm]

theorem apply_tensor (closed : scalars.allowFunctions = true) (notRandom : function ≠ .randList)
    (tensor : Tensor scalars 0 tree) {allowed : Step → Prop} :
    (function.apply tree).Ensures allowed (Tensor scalars 0) := by
  by_cases isError : tree.isError = true
  · unfold apply
    rw [if_pos isError]
    exact .pure (.error isError)
  · rw [Bool.not_eq_true] at isError
    rcases tensor.scalar_or_array isError with ⟨_, admitted⟩ | ⟨_, _, _, impossible, _⟩
    · rw [apply_eq_mapFunction notRandom isError (Scalars.asArray?_of_admits admitted)]
      exact .ofMarking (mapFunction_scalars closed admitted)
    · contradiction

end UnaryFunction

end SymbolicAlgebra
