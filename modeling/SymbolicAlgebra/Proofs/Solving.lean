import SymbolicAlgebra.Proofs.Denotation
import SymbolicAlgebra.Proofs.Soundness.Engine
import SymbolicAlgebra.Solve

/-!
# Solving arithmetic equations

Each inverse step on an equation of the four operations keeps its solutions: at
a point where both sides have values and where no divisor is zero, both sides of
the new equation have values too, which are equal exactly when the old ones are.
The side that holds the variable loses its root at every step and so stays an
arithmetic tree, while the other side passes through the engine and may become
any rational function.

The inverse steps are listed for radicals, which have squares and square roots
too, with what an invariant of these steps gives for a run.

That a single occurrence of the variable is isolated is a matter of shapes.  In
the ring with one element, where the variable alone has no value, the trees with
a value are those that do not mention it, and steps keep them as they keep all
values.  One lemma on steps, over any ring, therefore serves both statements.
-/

namespace SymbolicAlgebra

namespace Step

/-- The step does not divide by a tree that is zero at a point. -/
def avoidsZero (valuation : String → Option ℚ) : Step → Bool
  | divided divisor => divisor.denote valuation ≠ some 0
  | _ => true

end Step

namespace Expr

/-- The trees of the four operations: rational functions without powers. -/
def isArithmetic : Expr → Bool
  | .number value _ => value.isFraction
  | .var _ _ => true
  | .unary .neg operand _ => operand.isArithmetic
  | .arith op left right _ => op ≠ .pow && left.isArithmetic && right.isArithmetic
  | _ => false

/-- The trees of the four operations, squares and square roots. -/
def isRadical : Expr → Bool
  | .number value _ => value.isFraction
  | .var _ _ => true
  | .unary .neg operand _ => operand.isRadical
  | .arith .pow base exponent _ => base.isRadical && exponent.asInt? = some 2
  | .arith _ left right _ => left.isRadical && right.isRadical
  | .call .sqrt operand _ => operand.isRadical
  | _ => false

/-- The equation stated by a result of solving, as solution or as unresolved. -/
def statedEquation? : Expr → Option (Expr × Expr)
  | .relation .equal left right _ | .call₂ .solve (.relation .equal left right _) _ _ =>
      some (left, right)
  | _ => none

variable {name : String} {tree left right : Expr}

/-! ## Arithmetic trees and radicals -/

theorem isArithmetic_arith {op : ArithOp} (mark : Mark) :
    (Expr.arith op left right mark).isArithmetic = true ↔
      op ≠ .pow ∧ left.isArithmetic = true ∧ right.isArithmetic = true := by
  simp [isArithmetic, and_assoc]

theorem isRationalFunction_of_isArithmetic (arithmetic : tree.isArithmetic = true) :
    tree.isRationalFunction = true := by
  fun_induction isArithmetic tree with
  | case1 number mark => exact arithmetic
  | case2 other mark => rfl
  | case3 operand mark ih => exact ih arithmetic
  | case4 op left right mark leftIH rightIH =>
      obtain ⟨notPower, leftArithmetic, rightArithmetic⟩ := (isArithmetic_arith mark).mp arithmetic
      have leftRational := leftIH leftArithmetic
      have rightRational := rightIH rightArithmetic
      cases op with
      | pow => contradiction
      | _ => exact Bool.and_eq_true_iff.mpr ⟨leftRational, rightRational⟩
  | case5 => contradiction

theorem isRadical_of_isArithmetic (arithmetic : tree.isArithmetic = true) :
    tree.isRadical = true := by
  fun_induction isArithmetic tree with
  | case1 number mark => exact arithmetic
  | case2 other mark => rfl
  | case3 operand mark ih => exact ih arithmetic
  | case4 op left right mark leftIH rightIH =>
      obtain ⟨notPower, leftArithmetic, rightArithmetic⟩ := (isArithmetic_arith mark).mp arithmetic
      have leftRadical := leftIH leftArithmetic
      have rightRadical := rightIH rightArithmetic
      cases op with
      | pow => contradiction
      | _ => exact Bool.and_eq_true_iff.mpr ⟨leftRadical, rightRadical⟩
  | case5 => contradiction

/-- The operands of a node of the four operations, or the base of a square. -/
theorem operands_of_isRadical {op : ArithOp} {mark : Mark}
    (radical : (Expr.arith op left right mark).isRadical = true) :
    left.isRadical = true ∧
      (op ≠ .pow ∧ right.isRadical = true ∨
        op = .pow ∧ ∃ inner, right = .number (.int 2) inner) := by
  cases op with
  | pow =>
      obtain ⟨leftRadical, exponent⟩ := Bool.and_eq_true_iff.mp radical
      exact ⟨leftRadical, .inr ⟨rfl, eq_of_asInt? (of_decide_eq_true exponent)⟩⟩
  | _ =>
      obtain ⟨leftRadical, rightRadical⟩ := Bool.and_eq_true_iff.mp radical
      exact ⟨leftRadical, .inl ⟨by decide, rightRadical⟩⟩

/-- In radicals the solver sees every occurrence of the variable. -/
theorem presence_eq (radical : tree.isRadical = true) :
    tree.presence name = if name ∈ tree.occurrences then .found else .absent := by
  have unary (operand : Expr) (mark : Mark) : (Expr.unary .neg operand mark).presence name =
      Presence.join .absent (operand.presence name) := by simp [presence, fold, isTransparent]
  have root (operand : Expr) (mark : Mark) : (Expr.call .sqrt operand mark).presence name =
      Presence.join .absent (operand.presence name) := by simp [presence, fold, isTransparent]
  have binary (op : ArithOp) (left right : Expr) (mark : Mark) :
      (Expr.arith op left right mark).presence name =
        (Presence.join .absent (left.presence name)).join (right.presence name) := by
    simp [presence, fold, isTransparent]
  fun_induction isRadical tree with
  | case1 number mark => rfl
  | case2 other mark =>
      by_cases same : other = name
      · simp [presence, fold, leafPresence, same]
      · simp [presence, fold, leafPresence, same, Ne.symm same]
  | case3 operand mark ih =>
      rw [unary, ih radical, occurrences_unary]
      split <;> rfl
  | case4 base exponent mark ih =>
      obtain ⟨baseRadical, two⟩ := Bool.and_eq_true_iff.mp radical
      obtain ⟨inner, rfl⟩ := eq_of_asInt? (of_decide_eq_true two)
      have literal : (Expr.number (.int 2) inner).presence name = .absent := rfl
      rw [binary, ih baseRadical, literal, occurrences_arith, occurrences_number, List.append_nil]
      split <;> rfl
  | case5 op left right mark notPower leftIH rightIH =>
      obtain ⟨leftRadical, rightRadical⟩ := Bool.and_eq_true_iff.mp radical
      rw [binary, leftIH leftRadical, rightIH rightRadical, occurrences_arith]
      by_cases inLeft : name ∈ left.occurrences <;> by_cases inRight : name ∈ right.occurrences <;>
        simp [inLeft, inRight, Presence.join]
  | case6 operand mark ih =>
      rw [root, ih radical, occurrences_call]
      split <;> rfl
  | case7 => contradiction

theorem isFree_iff (radical : tree.isRadical = true) :
    isFree name tree = true ↔ name ∉ tree.occurrences := by
  rw [isFree, presence_eq radical]
  split <;> simp_all

end Expr

/-! ## Trees without the variable -/

/-- The ring with one element, where all variables but one have a value and
division by zero may go on with a number that is not exact. -/
def Reading.avoiding (name : String) : Reading PUnit where
  valuation other := if other = name then none else some ()
  inexact := True
  allowed step := step.staysInRange = true
  single _ := inferInstance
  inRange _ := Bool.false_ne_true
  defined _ _ _ _ := .inl trivial

/-- A tree with a value does not mention variables without one. -/
theorem Means.not_mem_occurrences {K : Type} [CommRing K] [Algebra ℚ K] {reading : Reading K}
    {name : String} {tree : Expr} {value : K} (means : Means reading tree value)
    (unknown : reading.valuation name = none) : name ∉ tree.occurrences := by
  induction means with
  | number _ => simp
  | @var other _ _ found =>
      intro member
      obtain rfl : name = other := by simpa using member
      rw [unknown] at found
      contradiction
  | neg _ ih => rwa [Expr.occurrences_unary]
  | add _ _ leftIH rightIH | sub _ _ leftIH rightIH | mul _ _ leftIH rightIH
  | div _ _ _ _ leftIH rightIH =>
      rw [Expr.occurrences_arith, List.mem_append, not_or]
      exact ⟨leftIH, rightIH⟩
  | pow _ _ _ ih => simpa using ih
  | call _ _ ih => rwa [Expr.occurrences_call]

namespace Expr

variable {name : String} {tree left right rest : Expr} {compute : Traced Expr}

theorem means_avoiding (arithmetic : tree.isArithmetic = true) (absent : name ∉ tree.occurrences) :
    Means (.avoiding name) tree () := by
  fun_induction isArithmetic tree with
  | case1 number mark =>
      obtain ⟨fraction, isFraction⟩ := Number.isFraction_iff.mp arithmetic
      exact .number (.inl ⟨fraction, isFraction, rfl⟩)
  | case2 other mark =>
      have different : other ≠ name := by
        rintro rfl
        simp at absent
      exact .var (if_neg different)
  | case3 operand mark ih =>
      rw [occurrences_unary] at absent
      exact .neg (ih arithmetic absent)
  | case4 op left right mark leftIH rightIH =>
      obtain ⟨notPower, leftArithmetic, rightArithmetic⟩ := (isArithmetic_arith mark).mp arithmetic
      rw [occurrences_arith, List.mem_append, not_or] at absent
      have leftMeans := leftIH leftArithmetic absent.1
      have rightMeans := rightIH rightArithmetic absent.2
      cases op with
      | add => exact .add leftMeans rightMeans
      | sub => exact .sub leftMeans rightMeans
      | mul => exact .mul leftMeans rightMeans
      | div => exact .div leftMeans rightMeans (isUnit_of_subsingleton _) rfl
      | pow => contradiction
  | case5 => contradiction

/-! ## Results of solving -/

theorem unresolvedSolution_states {mark : Mark} :
    ((Expr.relation .equal left right mark).unresolvedSolution name).Ensures
      (·.statedEquation? = some (left, right)) :=
  fun _ => rfl

/-- The solver states the equation that it has come to, and the equation itself
is the result once the variable stands alone. -/
theorem solved_states : (solved name left right).Ensures fun result =>
    result.statedEquation? = some (left, right) ∧
      (left.asVar? = some name → ∃ mark, result = .relation .equal left right mark) := by
  have made : (make (.relation .equal left right)).Ensures
      fun equation => ∃ mark, equation = .relation .equal left right mark :=
    .make fun mark => ⟨mark, rfl⟩
  refine .bind made ?_
  rintro _ ⟨mark, rfl⟩
  split
  · exact .pure ⟨rfl, fun _ => ⟨mark, rfl⟩⟩
  · rename_i unsolved
    exact unresolvedSolution_states.mono fun _ stated => ⟨stated, fun view => absurd view unsolved⟩

/-! ## Inverse steps -/

/-- The operations of a field moved to the other side: the side with the variable,
the other side, the operand that stays, and the operation on the other side. -/
inductive Transposes (name : String) : Expr → Expr → Expr → Expr → Prop where
  | neg {operand right : Expr} {mark : Mark} :
      Transposes name (.unary .neg operand mark) right operand (.unary .neg right)
  | addFirst {first second right : Expr} {mark : Mark} (free : isFree name second = true) :
      Transposes name (.arith .add first second mark) right first (.arith .sub right second)
  | addSecond {first second right : Expr} {mark : Mark} (free : isFree name first = true) :
      Transposes name (.arith .add first second mark) right second (.arith .sub right first)
  | subFirst {first second right : Expr} {mark : Mark} (free : isFree name second = true) :
      Transposes name (.arith .sub first second mark) right first (.arith .add right second)
  | subSecond {first second right : Expr} {mark : Mark} (free : isFree name first = true) :
      Transposes name (.arith .sub first second mark) right second (.arith .sub first right)
  | mulFirst {first second right : Expr} {mark : Mark} (free : isFree name second = true) :
      Transposes name (.arith .mul first second mark) right first (.arith .div right second)
  | mulSecond {first second right : Expr} {mark : Mark} (free : isFree name first = true) :
      Transposes name (.arith .mul first second mark) right second (.arith .div right first)
  | divFirst {first second right : Expr} {mark : Mark} (free : isFree name second = true) :
      Transposes name (.arith .div first second mark) right first (.arith .mul right second)
  | divSecond {first second right : Expr} {mark : Mark} (free : isFree name first = true) :
      Transposes name (.arith .div first second mark) right second (.arith .div first right)

/-- An operation on the sides of equations, computed with a note of divisors. -/
def perform : Expr → Traced Expr
  | .unary .neg operand _ => operand.neg
  | .arith .div dividend divisor _ => dividend.dividedBy divisor
  | .arith op first second _ => arithmetic op first second
  | tree => pure tree

/-- The inverse steps on an equation: the side with the variable, the other side,
the operand that stays, and the computation of the new other side. -/
inductive Moves (name : String) : Expr → Expr → Expr → Traced Expr → Prop where
  | transpose {left right rest operation : Expr}
      (transposes : Transposes name left right rest operation) :
      Moves name left right rest (perform operation)
  | square {base right : Expr} {inner mark : Mark} :
      Moves name (.arith .pow base (.number (.int 2) inner) mark) right base
        (UnaryFunction.sqrt.apply right)
  | root {operand right : Expr} {mark : Mark} :
      Moves name (.call .sqrt operand mark) right operand (right.pow (.int 2))

/-- On a radical an inverse step applies as listed.  Where none does, the tree does
not hold the variable just once, unless it is the variable. -/
theorem inverseStep_cases (name : String) (right : Expr) (radical : left.isRadical = true) :
    (∃ rest compute, Moves name left right rest compute ∧
      inverseStep name left right = (do return (rest, ← liftM compute))) ∨
    inverseStep name left right = failure ∧
      (left.occurrences.count name = 1 → left.asVar? = some name) := by
  cases left with
  | number number mark => exact .inr ⟨rfl, by simp⟩
  | var other mark =>
      refine .inr ⟨rfl, fun once => ?_⟩
      have same : other = name := by
        by_contra different
        simp [different] at once
      rw [same]
      rfl
  | unary op operand mark =>
      cases op with
      | neg => exact .inl ⟨operand, _, .transpose .neg, rfl⟩
      | not => contradiction
  | call function operand mark =>
      cases function with
      | sqrt => exact .inl ⟨operand, _, .root, rfl⟩
      | _ => contradiction
  | arith op first second mark =>
      obtain ⟨firstRadical, ⟨notPower, secondRadical⟩ | ⟨rfl, inner, rfl⟩⟩ :=
        operands_of_isRadical radical
      · rw [inverseStep]
        unfold peelArith
        by_cases secondFree : isFree name second = true
        · rw [if_pos secondFree]
          cases op with
          | add => exact .inl ⟨_, _, .transpose (.addFirst secondFree), rfl⟩
          | sub => exact .inl ⟨_, _, .transpose (.subFirst secondFree), rfl⟩
          | mul => exact .inl ⟨_, _, .transpose (.mulFirst secondFree), rfl⟩
          | div => exact .inl ⟨_, _, .transpose (.divFirst secondFree), rfl⟩
          | pow => contradiction
        · by_cases firstFree : isFree name first = true
          · rw [if_neg secondFree, if_pos firstFree]
            cases op with
            | add => exact .inl ⟨_, _, .transpose (.addSecond firstFree), rfl⟩
            | sub => exact .inl ⟨_, _, .transpose (.subSecond firstFree), rfl⟩
            | mul => exact .inl ⟨_, _, .transpose (.mulSecond firstFree), rfl⟩
            | div => exact .inl ⟨_, _, .transpose (.divSecond firstFree), rfl⟩
            | pow => contradiction
          · -- Both operands mention the variable.
            rw [if_neg secondFree, if_neg firstFree]
            refine .inr ⟨rfl, fun once => ?_⟩
            rw [isFree_iff firstRadical, not_not, ← List.count_pos_iff] at firstFree
            rw [isFree_iff secondRadical, not_not, ← List.count_pos_iff] at secondFree
            rw [occurrences_arith, List.count_append] at once
            omega
      · exact .inl ⟨first, _, .square, rfl⟩
  | _ => contradiction

/-- What stays of the side is a part of it with all occurrences of the variable. -/
theorem Moves.part (moves : Moves name left right rest compute) (radical : left.isRadical = true) :
    rest.isRadical = true ∧ rest.size < left.size ∧
      rest.occurrences.count name = left.occurrences.count name := by
  have binary {op : ArithOp} {first second : Expr} {mark : Mark}
      (radical : (Expr.arith op first second mark).isRadical = true) (notPower : op ≠ .pow) :
      first.isRadical = true ∧ second.isRadical = true := by
    obtain ⟨firstRadical, ⟨_, secondRadical⟩ | ⟨power, _⟩⟩ := operands_of_isRadical radical
    · exact ⟨firstRadical, secondRadical⟩
    · contradiction
  cases moves with
  | square =>
      obtain ⟨baseRadical, _⟩ := operands_of_isRadical radical
      refine ⟨baseRadical, ?_, by simp⟩
      rw [size_arith]
      omega
  | root => exact ⟨radical, by simp, by simp⟩
  | transpose transposes =>
      cases transposes with
      | neg => exact ⟨radical, by simp, by simp⟩
      | @addFirst _ _ _ mark free | @subFirst _ _ _ mark free | @mulFirst _ _ _ mark free
      | @divFirst _ _ _ mark free =>
          obtain ⟨firstRadical, secondRadical⟩ := binary radical (by decide)
          have none := List.count_eq_zero.mpr ((isFree_iff secondRadical).mp free)
          refine ⟨firstRadical, ?_, ?_⟩
          · rw [size_arith]
            omega
          · rw [occurrences_arith, List.count_append, none, Nat.add_zero]
      | @addSecond _ _ _ mark free | @subSecond _ _ _ mark free | @mulSecond _ _ _ mark free
      | @divSecond _ _ _ mark free =>
          obtain ⟨firstRadical, secondRadical⟩ := binary radical (by decide)
          have none := List.count_eq_zero.mpr ((isFree_iff firstRadical).mp free)
          refine ⟨secondRadical, ?_, ?_⟩
          · rw [size_arith]
            omega
          · rw [occurrences_arith, List.count_append, none, Nat.zero_add]

/-- On an arithmetic tree only operations of a field are moved. -/
theorem Moves.transposes (moves : Moves name left right rest compute)
    (arithmetic : left.isArithmetic = true) :
    ∃ operation, compute = perform operation ∧ Transposes name left right rest operation ∧
      rest.isArithmetic = true := by
  cases moves with
  | square | root => contradiction
  | transpose transposes =>
      refine ⟨_, rfl, transposes, ?_⟩
      cases transposes with
      | neg => exact arithmetic
      | addFirst | subFirst | mulFirst | divFirst =>
          exact ((isArithmetic_arith _).mp arithmetic).2.1
      | addSecond | subSecond | mulSecond | divSecond =>
          exact ((isArithmetic_arith _).mp arithmetic).2.2

section Values

variable {K : Type} [CommRing K] [Algebra ℚ K] {reading : Reading K} {allowed : Step → Prop}
  {operation : Expr} {value leftValue inverseValue : K}

/-- Runs that keep to a reading and divide only by what is invertible. -/
structure DividesByUnits (reading : Reading K) (allowed : Step → Prop) : Prop where
  admits : ∀ step, allowed step → reading.allowed step
  isUnit : ∀ {divisor : Expr} {value : K}, allowed (.divided divisor) →
    Means reading divisor value → IsUnit value

/-- An operation is computed to its value, which may depend on what divisors are
allowed. -/
theorem perform_means (admits : ∀ step, allowed step → reading.allowed step)
    (defined : (∀ dividend divisor mark, operation = .arith .div dividend divisor mark →
      allowed (.divided divisor)) → ∃ value, Means reading operation value) :
    (perform operation).Ensures allowed fun inverse =>
      ∃ value, Means reading operation value ∧ Means reading inverse value := by
  cases operation with
  | unary op operand mark =>
      obtain ⟨value, means⟩ := defined nofun
      cases op with
      | neg =>
          refine ((neg_means (Means.neg_iff.mp means)).restrict admits).mono fun inverse holds => ?_
          exact ⟨value, means, by rwa [neg_neg] at holds⟩
      | not => exact .pure ⟨value, means, means⟩
  | arith op first second mark =>
      have computes {value : K} (means : Means reading (.arith op first second mark) value) :
          (arithmetic op first second).Ensures allowed fun inverse =>
            ∃ value, Means reading (.arith op first second mark) value ∧
              Means reading inverse value :=
        ((arithmetic_means (means.withMark .initial)).restrict admits).mono fun _ holds =>
          ⟨value, means, holds⟩
      cases op with
      | div =>
          refine .bind .step fun _ admitted => ?_
          obtain ⟨value, means⟩ := defined (by rintro _ _ _ ⟨⟩; exact admitted)
          exact computes means
      | _ =>
          obtain ⟨value, means⟩ := defined nofun
          exact computes means
  | _ =>
      obtain ⟨value, means⟩ := defined nofun
      exact .pure ⟨value, means, means⟩

/-- The moved operation has a value where its divisor, if it has one, is
invertible. -/
theorem Transposes.defined (transposes : Transposes name left right rest operation)
    (known : ∀ part ∈ left.children, isFree name part = true → ∃ value, Means reading part value)
    (rightMeans : Means reading right value)
    (units : ∀ dividend divisor mark divisorValue, operation = .arith .div dividend divisor mark →
      Means reading divisor divisorValue → IsUnit divisorValue) :
    ∃ value, Means reading operation value := by
  have quotient {dividend divisor : Expr} {first second : K}
      (dividendMeans : Means reading dividend first) (divisorMeans : Means reading divisor second)
      (isUnit : IsUnit second) : ∃ value, Means reading (.arith .div dividend divisor) value := by
    obtain ⟨unit, rfl⟩ := isUnit
    exact ⟨_, .div dividendMeans divisorMeans unit.isUnit (Units.inv_mul_cancel_right first unit)⟩
  cases transposes with
  | neg => exact ⟨_, .neg rightMeans⟩
  | addFirst free =>
      obtain ⟨second, secondMeans⟩ := known _ (by simp [children]) free
      exact ⟨_, .sub rightMeans secondMeans⟩
  | addSecond free =>
      obtain ⟨first, firstMeans⟩ := known _ (by simp [children]) free
      exact ⟨_, .sub rightMeans firstMeans⟩
  | subFirst free =>
      obtain ⟨second, secondMeans⟩ := known _ (by simp [children]) free
      exact ⟨_, .add rightMeans secondMeans⟩
  | subSecond free =>
      obtain ⟨first, firstMeans⟩ := known _ (by simp [children]) free
      exact ⟨_, .sub firstMeans rightMeans⟩
  | mulFirst free =>
      obtain ⟨second, secondMeans⟩ := known _ (by simp [children]) free
      exact quotient rightMeans secondMeans (units _ _ _ _ rfl secondMeans)
  | mulSecond free =>
      obtain ⟨first, firstMeans⟩ := known _ (by simp [children]) free
      exact quotient rightMeans firstMeans (units _ _ _ _ rfl firstMeans)
  | divFirst free =>
      obtain ⟨second, secondMeans⟩ := known _ (by simp [children]) free
      exact ⟨_, .mul rightMeans secondMeans⟩
  | divSecond free =>
      obtain ⟨first, firstMeans⟩ := known _ (by simp [children]) free
      exact quotient firstMeans rightMeans (units _ _ _ _ rfl rightMeans)

/-- Where the moved operation has a value, both equations hold at the same points. -/
theorem Transposes.holds_iff (transposes : Transposes name left right rest operation)
    (rightMeans : Means reading right value) (operationMeans : Means reading operation inverseValue)
    (leftMeans : Means reading left leftValue) :
    ∃ restValue, Means reading rest restValue ∧ (leftValue = value ↔ restValue = inverseValue) := by
  cases transposes with
  | neg =>
      obtain rfl := neg_eq_iff_eq_neg.mp ((Means.neg_iff.mp operationMeans).unique rightMeans)
      exact ⟨-leftValue, Means.neg_iff.mp leftMeans, neg_inj.symm⟩
  | addFirst free =>
      obtain ⟨first, second, firstMeans, secondMeans, rfl⟩ := Means.add_iff.mp leftMeans
      obtain ⟨_, _, sameRight, sameSecond, rfl⟩ := Means.sub_iff.mp operationMeans
      obtain rfl := sameRight.unique rightMeans
      obtain rfl := sameSecond.unique secondMeans
      exact ⟨first, firstMeans, eq_sub_iff_add_eq.symm⟩
  | addSecond free =>
      obtain ⟨first, second, firstMeans, secondMeans, rfl⟩ := Means.add_iff.mp leftMeans
      obtain ⟨_, _, sameRight, sameFirst, rfl⟩ := Means.sub_iff.mp operationMeans
      obtain rfl := sameRight.unique rightMeans
      obtain rfl := sameFirst.unique firstMeans
      exact ⟨second, secondMeans, eq_sub_iff_add_eq'.symm⟩
  | subFirst free =>
      obtain ⟨first, second, firstMeans, secondMeans, rfl⟩ := Means.sub_iff.mp leftMeans
      obtain ⟨_, _, sameRight, sameSecond, rfl⟩ := Means.add_iff.mp operationMeans
      obtain rfl := sameRight.unique rightMeans
      obtain rfl := sameSecond.unique secondMeans
      exact ⟨first, firstMeans, sub_eq_iff_eq_add⟩
  | subSecond free =>
      obtain ⟨first, second, firstMeans, secondMeans, rfl⟩ := Means.sub_iff.mp leftMeans
      obtain ⟨_, _, sameFirst, sameRight, rfl⟩ := Means.sub_iff.mp operationMeans
      obtain rfl := sameRight.unique rightMeans
      obtain rfl := sameFirst.unique firstMeans
      refine ⟨second, secondMeans, ?_⟩
      rw [sub_eq_iff_eq_add, eq_sub_iff_add_eq', eq_comm]
  | mulFirst free =>
      obtain ⟨first, second, firstMeans, secondMeans, rfl⟩ := Means.mul_iff.mp leftMeans
      obtain ⟨_, _, sameRight, sameSecond, isUnit, product⟩ := Means.div_iff.mp operationMeans
      obtain rfl := sameRight.unique rightMeans
      obtain rfl := sameSecond.unique secondMeans
      refine ⟨first, firstMeans, ?_⟩
      rw [← product, isUnit.mul_left_inj]
  | mulSecond free =>
      obtain ⟨first, second, firstMeans, secondMeans, rfl⟩ := Means.mul_iff.mp leftMeans
      obtain ⟨_, _, sameRight, sameFirst, isUnit, product⟩ := Means.div_iff.mp operationMeans
      obtain rfl := sameRight.unique rightMeans
      obtain rfl := sameFirst.unique firstMeans
      refine ⟨second, secondMeans, ?_⟩
      rw [← product, mul_comm inverseValue, isUnit.mul_right_inj]
  | divFirst free =>
      obtain ⟨first, second, firstMeans, secondMeans, isUnit, rfl⟩ := Means.div_iff.mp leftMeans
      obtain ⟨_, _, sameRight, sameSecond, rfl⟩ := Means.mul_iff.mp operationMeans
      obtain rfl := sameRight.unique rightMeans
      obtain rfl := sameSecond.unique secondMeans
      exact ⟨_, firstMeans, isUnit.mul_left_inj.symm⟩
  | divSecond free =>
      obtain ⟨first, second, firstMeans, secondMeans, secondUnit, product⟩ :=
        Means.div_iff.mp leftMeans
      obtain ⟨_, _, sameFirst, sameRight, isUnit, otherProduct⟩ := Means.div_iff.mp operationMeans
      obtain rfl := sameRight.unique rightMeans
      obtain rfl := sameFirst.unique firstMeans
      -- Both quotients are of the same dividend.
      refine ⟨second, secondMeans, ?_⟩
      rw [← secondUnit.mul_left_inj, product, ← otherProduct, mul_comm inverseValue,
        isUnit.mul_right_inj, eq_comm]

/-- A move keeps values and solutions.  Only the operand that is moved needs a
value for this. -/
theorem Transposes.means (transposes : Transposes name left right rest operation)
    (divides : DividesByUnits reading allowed)
    (known : ∀ part ∈ left.children, isFree name part = true → ∃ value, Means reading part value)
    (rightMeans : Means reading right value) :
    (perform operation).Ensures allowed fun inverse =>
      ∃ inverseValue, Means reading inverse inverseValue ∧
        ∀ leftValue, Means reading left leftValue → ∃ restValue, Means reading rest restValue ∧
          (leftValue = value ↔ restValue = inverseValue) := by
  refine (perform_means divides.admits fun admitted => ?_).mono ?_
  · exact transposes.defined known rightMeans fun dividend divisor mark _ same =>
      divides.isUnit (admitted dividend divisor mark same)
  · rintro inverse ⟨inverseValue, operationMeans, inverseMeans⟩
    exact ⟨inverseValue, inverseMeans, fun _ => transposes.holds_iff rightMeans operationMeans⟩

end Values

/-! ## Runs of inverse steps -/

section Runs

variable {allowed : Step → Prop} {invariant : Expr → Expr → Prop} {condition : Expr → Prop}

/-- An invariant of the equation along a run: every inverse step keeps it or ends
the run with an error, and it gives the condition wherever a run stops. -/
structure RunInvariant (name : String) (allowed : Step → Prop) (invariant : Expr → Expr → Prop)
    (condition : Expr → Prop) : Prop where
  radical : ∀ {left right : Expr}, invariant left right → left.isRadical = true
  keeps : ∀ {left right rest : Expr} {compute : Traced Expr}, invariant left right →
    Moves name left right rest compute → compute.Ensures allowed fun inverse =>
      allowed (.peeled left rest inverse) →
        if inverse.isError then condition inverse else invariant rest inverse
  stops : ∀ {left right : Expr}, invariant left right →
    (left.occurrences.count name = 1 → left.asVar? = some name) →
      (solved name left right).Ensures condition

theorem peel_succeeds (step : inverseStep name left right = (do return (rest, ← liftM compute)))
    (ensures : compute.Ensures allowed fun inverse =>
      allowed (.peeled left rest inverse) → condition inverse) :
    (peel name left right).Succeeds allowed fun sides => sides.1 = rest ∧ condition sides.2 := by
  have pair : (inverseStep name left right).Succeeds allowed fun sides =>
      sides.1 = rest ∧ (allowed (.peeled left rest sides.2) → condition sides.2) := by
    rw [step]
    exact .bind (.lift ensures) fun inverse holds => .pure ⟨rfl, holds⟩
  refine .bind pair ?_
  rintro ⟨staying, inverse⟩ ⟨rfl, holds⟩
  exact .bind (.lift .step) fun _ admitted => .pure ⟨rfl, holds admitted⟩

/-- As many steps as the side has nodes are enough for a run to stop. -/
theorem RunInvariant.isolate (holds : RunInvariant name allowed invariant condition) {steps : Nat}
    (start : invariant left right) (enough : left.size ≤ steps) :
    (isolate name steps left right).Ensures allowed condition := by
  induction steps generalizing left right with
  | zero => exact absurd enough (Nat.not_le_of_gt left.size_pos)
  | succ steps ih =>
      rw [Expr.isolate]
      split
      · rename_i isolated
        exact .ofMarking (holds.stops start fun _ => isolated)
      · have radical := holds.radical start
        rcases inverseStep_cases name right radical with
          ⟨rest, compute, moves, step⟩ | ⟨fails, stuck⟩
        · refine (peel_succeeds step (holds.keeps start moves)).run_match ?_
          rintro ⟨staying, inverse⟩ ⟨same, continues⟩
          obtain rfl : staying = rest := same
          dsimp only at continues ⊢
          split
          · rename_i error
            rw [if_pos error] at continues
            exact .pure continues
          · rename_i fine
            rw [if_neg fine] at continues
            have smaller := (moves.part radical).2.1
            exact ih continues (by omega)
        · have missing : (peel name left right).run = pure none := by
            rw [peel, fails]
            rfl
          rw [missing]
          exact .ofMarking (holds.stops start stuck)

/-- An equation is solved on the side that alone mentions the variable. -/
theorem RunInvariant.solve (holds : RunInvariant name allowed invariant condition) {mark : Mark}
    (leftPresence : left.presence name = if name ∈ left.occurrences then .found else .absent)
    (rightPresence : right.presence name = if name ∈ right.occurrences then .found else .absent)
    (starts : name ∈ left.occurrences → name ∉ right.occurrences → invariant left right)
    (swaps : name ∉ left.occurrences → name ∈ right.occurrences → invariant right left)
    (refuses : (name ∈ left.occurrences ↔ name ∈ right.occurrences) →
      ((Expr.relation .equal left right mark).unresolvedSolution name).Ensures condition) :
    ((Expr.relation .equal left right mark).solve name).Ensures allowed condition := by
  have fine : (Expr.relation .equal left right mark).isError = false := rfl
  rw [Expr.solve, fine, if_neg Bool.false_ne_true, leftPresence, rightPresence]
  by_cases inLeft : name ∈ left.occurrences
  · by_cases inRight : name ∈ right.occurrences
    · rw [if_pos inLeft, if_pos inRight]
      exact .ofMarking (refuses (iff_of_true inLeft inRight))
    · rw [if_pos inLeft, if_neg inRight]
      exact holds.isolate (starts inLeft inRight) (Nat.le_refl _)
  · by_cases inRight : name ∈ right.occurrences
    · rw [if_neg inLeft, if_pos inRight]
      exact holds.isolate (swaps inLeft inRight) (Nat.le_refl _)
    · rw [if_neg inLeft, if_neg inRight]
      exact .ofMarking (refuses (iff_of_false inLeft inRight))

end Runs

/-! ## Isolation -/

theorem isArithmetic_of_mem_children {part : Expr} (arithmetic : tree.isArithmetic = true)
    (member : part ∈ tree.children) : part.isArithmetic = true := by
  cases tree with
  | unary op operand mark =>
      obtain rfl := List.mem_singleton.mp member
      cases op with
      | neg => exact arithmetic
      | not => contradiction
  | arith op left right mark =>
      obtain ⟨_, leftArithmetic, rightArithmetic⟩ := (isArithmetic_arith mark).mp arithmetic
      rcases List.mem_pair.mp member with rfl | rfl
      · exact leftArithmetic
      · exact rightArithmetic
  | _ => contradiction

/-- The result gives the variable by a tree without it, or is an error. -/
def Isolates (name : String) (result : Expr) : Prop :=
  result.isError = true ∨ ∃ solution inner outer,
    result = .relation .equal (.var name inner) solution outer ∧ name ∉ solution.occurrences

theorem isolates_invariant (name : String) :
    RunInvariant name (·.staysInRange = true)
      (fun left right => left.isArithmetic = true ∧ left.occurrences.count name = 1 ∧
        Means (.avoiding name) right ())
      (Isolates name) where
  radical holds := isRadical_of_isArithmetic holds.1
  keeps {left right rest compute} holds moves := by
    obtain ⟨arithmetic, once, rightMeans⟩ := holds
    obtain ⟨_, _, sameCount⟩ := moves.part (isRadical_of_isArithmetic arithmetic)
    obtain ⟨operation, rfl, transposes, restArithmetic⟩ := moves.transposes arithmetic
    have divides : DividesByUnits (Reading.avoiding name) (·.staysInRange = true) :=
      ⟨fun _ => id, fun _ _ => isUnit_of_subsingleton _⟩
    refine (transposes.means divides ?_ rightMeans).mono ?_
    · intro part member free
      have partArithmetic := isArithmetic_of_mem_children arithmetic member
      have absent := (isFree_iff (isRadical_of_isArithmetic partArithmetic)).mp free
      exact ⟨(), means_avoiding partArithmetic absent⟩
    · rintro inverse ⟨_, inverseMeans, _⟩ _
      split
      · exact .inl ‹_›
      · exact ⟨restArithmetic, sameCount.trans once, inverseMeans⟩
  stops {left right} holds isolated := by
    obtain ⟨_, once, rightMeans⟩ := holds
    have view := isolated once
    obtain ⟨inner, rfl⟩ := eq_of_asVar? view
    refine solved_states.mono fun result states => ?_
    obtain ⟨outer, equal⟩ := states.2 view
    exact .inr ⟨right, inner, outer, equal, rightMeans.not_mem_occurrences (if_pos rfl)⟩

theorem solve_isolates {mark : Mark} (leftArithmetic : left.isArithmetic = true)
    (rightArithmetic : right.isArithmetic = true)
    (once : (left.occurrences ++ right.occurrences).count name = 1) :
    ((Expr.relation .equal left right mark).solve name).Ensures (·.staysInRange = true)
      (Isolates name) := by
  rw [List.count_append] at once
  refine (isolates_invariant name).solve (presence_eq (isRadical_of_isArithmetic leftArithmetic))
    (presence_eq (isRadical_of_isArithmetic rightArithmetic)) ?_ ?_ ?_
  · intro _ absent
    have none := List.count_eq_zero.mpr absent
    exact ⟨leftArithmetic, by omega, means_avoiding rightArithmetic absent⟩
  · intro absent _
    have none := List.count_eq_zero.mpr absent
    exact ⟨rightArithmetic, by omega, means_avoiding leftArithmetic absent⟩
  · intro both
    rw [← List.count_pos_iff, ← List.count_pos_iff] at both
    omega

/-! ## Solutions -/

section Solutions

variable {valuation : String → Option ℚ} {holds : Prop}

/-- Both sides have values at a point, which are equal exactly when a given
statement holds. -/
def Agree (valuation : String → Option ℚ) (holds : Prop) (left right : Expr) : Prop :=
  ∃ first second, Means (.rationals valuation) left first ∧
    Means (.rationals valuation) right second ∧ (holds ↔ first = second)

theorem Agree.symm (agree : Agree valuation holds left right) :
    Agree valuation holds right left := by
  obtain ⟨first, second, leftMeans, rightMeans, equivalent⟩ := agree
  exact ⟨second, first, rightMeans, leftMeans, equivalent.trans eq_comm⟩

theorem dividesByUnits_rationals : DividesByUnits (Reading.rationals valuation)
    fun step => step.staysInRange = true ∧ step.avoidsZero valuation = true where
  admits _ := And.left
  isUnit {divisor value} admitted means := by
    have nonzero : divisor.denote valuation ≠ some 0 := by
      simpa [Step.avoidsZero] using admitted.2
    rw [means.denote] at nonzero
    exact IsUnit.mk0 value fun zero => nonzero (congrArg some zero)

theorem agree_invariant (name : String) (valuation : String → Option ℚ) (holds : Prop) :
    RunInvariant name (fun step => step.staysInRange = true ∧ step.avoidsZero valuation = true)
      (fun left right => left.isArithmetic = true ∧ Agree valuation holds left right)
      (fun result => ∃ left right, result.statedEquation? = some (left, right) ∧
        Agree valuation holds left right) where
  radical agrees := isRadical_of_isArithmetic agrees.1
  keeps {left right rest compute} agrees moves := by
    obtain ⟨arithmetic, first, second, leftMeans, rightMeans, equivalent⟩ := agrees
    obtain ⟨operation, rfl, transposes, restArithmetic⟩ := moves.transposes arithmetic
    refine (transposes.means dividesByUnits_rationals
      (fun part member _ => leftMeans.of_mem_children member) rightMeans).mono ?_
    rintro inverse ⟨inverseValue, inverseMeans, solutions⟩ _
    obtain ⟨restValue, restMeans, keeps⟩ := solutions first leftMeans
    rw [inverseMeans.isError id, if_neg Bool.false_ne_true]
    exact ⟨restArithmetic, restValue, inverseValue, restMeans, inverseMeans,
      equivalent.trans keeps⟩
  stops agrees _ := solved_states.mono fun _ states => ⟨_, _, states.1, agrees.2⟩

theorem solve_agrees {mark : Mark} (leftArithmetic : left.isArithmetic = true)
    (rightArithmetic : right.isArithmetic = true) (agree : Agree valuation holds left right) :
    ((Expr.relation .equal left right mark).solve name).Ensures
      (fun step => step.staysInRange = true ∧ step.avoidsZero valuation = true)
      (fun result => ∃ left right, result.statedEquation? = some (left, right) ∧
        Agree valuation holds left right) := by
  refine (agree_invariant name valuation holds).solve
    (presence_eq (isRadical_of_isArithmetic leftArithmetic))
    (presence_eq (isRadical_of_isArithmetic rightArithmetic)) ?_ ?_ ?_
  · intro _ _
    exact ⟨leftArithmetic, agree⟩
  · intro _ _
    exact ⟨rightArithmetic, agree.symm⟩
  · intro _
    exact unresolvedSolution_states.mono fun _ stated => ⟨left, right, stated, agree⟩

end Solutions

end Expr

/-- Solving an equation of the four operations isolates a variable that occurs
just once, unless it ends in an error, and keeps the solutions of every equation
at the points where both sides are defined and no divisor is zero: the result
states an equation whose sides are defined there too.  No number may leave the
range on the way. -/
theorem solve_isolates_and_keeps_solutions (left right : Expr) (name : String) (mark : Mark)
    (start : Nat) (leftArithmetic : left.isArithmetic = true)
    (rightArithmetic : right.isArithmetic = true)
    (inRange : ∀ step ∈ ((Expr.relation .equal left right mark).solve name).steps start,
      step.staysInRange = true) :
    let result := ((Expr.relation .equal left right mark).solve name).value start
    ((left.occurrences ++ right.occurrences).count name = 1 →
      result.isError = true ∨ ∃ solution inner outer,
        result = .relation .equal (.var name inner) solution outer ∧
          name ∉ solution.occurrences) ∧
    ∀ (valuation : String → Option ℚ) (first second : ℚ), left.denote valuation = some first →
      right.denote valuation = some second →
      (∀ step ∈ ((Expr.relation .equal left right mark).solve name).steps start,
        step.avoidsZero valuation = true) →
      ∃ newLeft newRight newFirst newSecond,
        result.statedEquation? = some (newLeft, newRight) ∧
          newLeft.denote valuation = some newFirst ∧ newRight.denote valuation = some newSecond ∧
          (first = second ↔ newFirst = newSecond) := by
  intro result
  refine ⟨fun once => Expr.solve_isolates leftArithmetic rightArithmetic once start inRange, ?_⟩
  intro valuation first second leftDenotes rightDenotes avoided
  have agree : Expr.Agree valuation (first = second) left right :=
    ⟨first, second,
      means_of_denote (Expr.isRationalFunction_of_isArithmetic leftArithmetic) leftDenotes,
      means_of_denote (Expr.isRationalFunction_of_isArithmetic rightArithmetic) rightDenotes,
      Iff.rfl⟩
  obtain ⟨newLeft, newRight, stated, newFirst, newSecond, newLeftMeans, newRightMeans,
      equivalent⟩ :=
    Expr.solve_agrees leftArithmetic rightArithmetic agree start fun step member =>
      ⟨inRange step member, avoided step member⟩
  exact ⟨newLeft, newRight, newFirst, newSecond, stated, newLeftMeans.denote, newRightMeans.denote,
    equivalent⟩

/-- The equation `6 / (2 * x - y) = 3` is solved for `x`, and the solution holds
where `x` is `3 / 2` and `y` is `1`. -/
theorem reciprocal_equation_is_solved :
    let left : Expr :=
      .arith .div (.int 6) (.arith .sub (.arith .mul (.int 2) (.var "x")) (.var "y"))
    let point : String → Option ℚ := fun name =>
      if name = "x" then some (3 / 2) else if name = "y" then some 1 else none
    let result := ((Expr.relation .equal left (.int 3)).solve "x").value 0
    (∃ solution inner outer, result = .relation .equal (.var "x" inner) solution outer ∧
      "x" ∉ solution.occurrences) ∧
    ∃ newLeft newRight value, result.statedEquation? = some (newLeft, newRight) ∧
      newLeft.denote point = some value ∧ newRight.denote point = some (value : ℚ) := by
  intro left point result
  have inRange : ∀ step ∈ ((Expr.relation .equal left (.int 3)).solve "x").steps 0,
      step.staysInRange = true := by decide +kernel
  have avoided : ∀ step ∈ ((Expr.relation .equal left (.int 3)).solve "x").steps 0,
      step.avoidsZero point = true := by decide +kernel
  have noError : result.isError = false := by decide +kernel
  obtain ⟨isolates, solutions⟩ := solve_isolates_and_keeps_solutions left (.int 3) "x" .initial 0
    (by decide +kernel) (by decide +kernel) inRange
  obtain ⟨newLeft, newRight, newFirst, newSecond, stated, leftDenotes, rightDenotes, equivalent⟩ :=
    solutions point 3 3 (by decide +kernel) (by decide +kernel) avoided
  refine ⟨(isolates (by decide +kernel)).resolve_left ?_, newLeft, newRight, newFirst, stated,
    leftDenotes, ?_⟩
  · exact ne_true_of_eq_false noError
  · rw [rightDenotes, equivalent.mp rfl]

end SymbolicAlgebra
