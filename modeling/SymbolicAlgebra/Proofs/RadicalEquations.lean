import SymbolicAlgebra.Proofs.ExactEvaluation
import SymbolicAlgebra.Proofs.ExactValues
import SymbolicAlgebra.Proofs.Solving
import SymbolicAlgebra.Proofs.Substitution

/-!
# Solving equations with squares and roots

Moving a square root squares the other side, so an equation may be solved although it
has no solution: the root was to be a number that is not principal.  Moving a square
takes the principal root, which is right as long as it is exact.

When every equation met on the way can hold, and its other side is exact, the solution
is genuine.  The step lemma says so backwards: if the equation that a step leads to
holds for some value of the variable, then so does the one that it came from.
-/

namespace SymbolicAlgebra

namespace Expr

/-- Some value of the operand that is not known gives the operation at the root of the
tree the given value. -/
def canTake (tree : Expr) (value : GaussianRational) : Bool :=
  match tree with
  | .call .sqrt _ _ => IsPrincipal value
  | .arith .mul left right _ =>
      value = 0 ∨ left.exactValue?.any (· ≠ 0) ∨ right.exactValue?.any (· ≠ 0)
  | .arith .div left right _ => value ≠ 0 ∨ right.exactValue?.isSome ∨ left.exactValue? = some 0
  | _ => true

/-- The right side of an equation is exact, and the left side can be equal to it. -/
def canEqual (left right : Expr) : Bool := right.exactValue?.any left.canTake

end Expr

/-- The equation that a step of the solver leads to can hold. -/
def Step.canHold : Step → Bool
  | .peeled _ left right => left.canEqual right
  | _ => true

/-- The reading of closed trees and of a variable that has a value. -/
def Reading.exactAt (name : String) (value : GaussianRational) : Reading GaussianRational :=
  .exact fun other => if other = name then some value else none

section Roots

variable {valuation : String → Option GaussianRational} {number : Number}
  {value root : GaussianRational} {tree : Expr}

/-- An exact square root of a number is the principal one. -/
theorem Reading.Reads.sqrt (reads : (Reading.exact valuation).Reads number value)
    (exact : number.sqrt.isExact = true) :
    ∃ root, principalRoot? value = some root ∧ number.sqrt.Represents root := by
  obtain ⟨bounded, denotes⟩ := reads.value?_eq
  have real : ∃ fraction, number.IsFraction fraction := by
    cases number with
    | int whole => exact ⟨whole, rfl, bounded⟩
    | rational ratio => exact ⟨ratio, rfl, bounded⟩
    | real _ | complexReal _ => cases denotes
    | complexInt parts | complexRational parts =>
        exact absurd (exact.symm.trans (Number.ofComplexFloat_isExact _)) (by decide)
  obtain ⟨fraction, isFraction⟩ := real
  obtain rfl := Option.some.inj (isFraction.value?.symm.trans denotes)
  obtain ⟨root, nonnegative, square, represents⟩ := isFraction.sqrt exact
  exact ⟨_, principalRoot?_real nonnegative square, represents⟩

/-- The root of a tree that is not a number keeps the node, or cancels a square to a
magnitude. -/
theorem sqrt_symbolic {allowed : Step → Prop} (means : Means (.exact valuation) tree value)
    (symbolic : tree.isNumber = false) :
    (UnaryFunction.sqrt.apply tree).Ensures allowed fun result =>
      ∃ mark, result = .call .sqrt tree mark ∨ ∃ base inner outer,
        tree = .arith .pow base (.number (.int 2) inner) outer ∧ result = .call .abs base mark := by
  have applied : UnaryFunction.sqrt.apply tree = liftM (UnaryFunction.sqrt.onSymbolic tree) := by
    cases means with
    | number _ => contradiction
    | _ => rfl
  rw [applied]
  unfold UnaryFunction.onSymbolic
  split
  · contradiction
  · contradiction
  · exact .make fun mark => ⟨mark, .inr ⟨_, _, _, rfl, rfl⟩⟩
  · contradiction
  · contradiction
  · exact .make fun mark => ⟨mark, .inl rfl⟩

/-- Where the root of a tree comes out exact, it is a square root of the value. -/
theorem sqrt_means {allowed : Step → Prop} (means : Means (.exact valuation) tree value) :
    (UnaryFunction.sqrt.apply tree).Ensures allowed fun result =>
      ∀ root, result.exactValue? = some root → root * root = value := by
  have same {part : Expr} {first second : GaussianRational}
      (exact : part.exactValue? = some first) (partMeans : Means (.exact valuation) part second) :
      first = second := (means_of_exactValue? exact).unique partMeans
  cases isNumber : tree.isNumber with
  | true =>
      obtain ⟨number, mark, rfl⟩ := Expr.eq_of_isNumber isNumber
      have reads := Means.number_iff.mp means
      refine (Expr.sqrt_number (reads.isExact id)).mono ?_
      rintro _ ⟨outer, rfl⟩ root exact
      have rootMeans : Means (.exact valuation) (.number number.sqrt outer) root :=
        means_of_exactValue? exact
      have rootReads := Means.number_iff.mp rootMeans
      obtain ⟨principal, found, represents⟩ := reads.sqrt (rootReads.isExact id)
      obtain rfl := rootReads.unique represents.reads
      exact (principalRoot?_eq_some found).2
  | false =>
      refine (sqrt_symbolic means isNumber).mono ?_
      rintro _ ⟨mark, rfl | ⟨base, inner, outer, rfl, rfl⟩⟩ root exact
      · obtain ⟨argument, argumentExact, found⟩ := Option.bind_eq_some_iff.mp exact
        obtain rfl := same argumentExact means
        exact (principalRoot?_eq_some found).2
      · obtain ⟨argument, baseExact, found⟩ := Option.bind_eq_some_iff.mp exact
        obtain ⟨first, n, baseMeans, ⟨_, _, ⟨⟩⟩, power⟩ := Means.pow_iff.mp means
        obtain rfl := same baseExact baseMeans
        rw [magnitude?_square found]
        exact power.unique (.of_natural _ (by decide)) ▸ (pow_two _).symm

end Roots

/-! ## One step -/

namespace Expr

variable {name : String} {solution : GaussianRational} {goal : Prop}
  {left right rest operation tree : Expr} {compute : Traced Expr} {first second : GaussianRational}

theorem exactValue?_eq_none (member : name ∈ tree.occurrences) : tree.exactValue? = none := by
  by_contra exact
  obtain ⟨value, exact⟩ := Option.ne_none_iff_exists'.mp exact
  have means : Means (.exact fun _ => none) tree value := means_of_exactValue? exact
  exact means.not_mem_occurrences rfl member

theorem canEqual_iff : left.canEqual right = true ↔
    ∃ value, right.exactValue? = some value ∧ left.canTake value = true :=
  Option.any_eq_true _ _

/-- The steps of runs that stay exact and on which every equation can hold. -/
def Holding (step : Step) : Prop := step.staysInRange = true ∧ step.canHold = true

/-- An equation that can hold and gives the goal if it does, unless the goal is known. -/
def Leads (name : String) (solution : GaussianRational) (goal : Prop) (left right : Expr) : Prop :=
  goal ∨ ∃ first second, Means (.exactAt name solution) left first ∧
    Means (.exactAt name solution) right second ∧ left.canTake second = true ∧
      (first = second → goal)

/-- A factor of value zero leaves a product no other value than zero. -/
theorem eq_zero_of_canTake_mul {known : Expr} {value : GaussianRational}
    (knownMeans : Means (.exactAt name solution) known 0) (unknown : tree.exactValue? = none)
    (can : value = 0 ∨ tree.exactValue?.any (· ≠ 0) ∨ known.exactValue?.any (· ≠ 0)) :
    value = 0 := by
  rcases can with zero | treeNonzero | knownNonzero
  · exact zero
  · rw [unknown] at treeNonzero
    contradiction
  · obtain ⟨factor, exact, nonzero⟩ := (Option.any_eq_true _ _).mp knownNonzero
    have factorMeans : Means (.exactAt name solution) known factor := means_of_exactValue? exact
    exact absurd (factorMeans.unique knownMeans) (of_decide_eq_true nonzero)

/-- An operation is moved unless this would be a division by zero; but then both sides
are zero. -/
theorem Transposes.defined_or_eq (transposes : Transposes name left right rest operation)
    (mentioned : name ∈ rest.occurrences)
    (leftMeans : Means (.exactAt name solution) left first)
    (rightMeans : Means (.exactAt name solution) right second)
    (can : left.canTake second = true) :
    (∃ value, Means (.exactAt name solution) operation value) ∨ first = second := by
  by_contra neither
  obtain ⟨undefined, different⟩ := not_or.mp neither
  refine undefined (transposes.defined (fun part member _ => leftMeans.of_mem_children member)
    rightMeans ?_)
  intro dividend divisor mark value same divisorMeans
  refine IsUnit.mk0 value fun zero => different ?_
  subst zero
  have unknown := exactValue?_eq_none mentioned
  cases transposes with
  | mulFirst free =>
      cases same
      obtain ⟨_, _, _, secondMeans, rfl⟩ := Means.mul_iff.mp leftMeans
      obtain rfl := secondMeans.unique divisorMeans
      rw [eq_zero_of_canTake_mul divisorMeans unknown (of_decide_eq_true can), mul_zero]
  | mulSecond free =>
      cases same
      obtain ⟨_, _, firstMeans, _, rfl⟩ := Means.mul_iff.mp leftMeans
      obtain rfl := firstMeans.unique divisorMeans
      rw [eq_zero_of_canTake_mul divisorMeans unknown
        ((of_decide_eq_true can).imp_right Or.symm), zero_mul]
  | divSecond free =>
      cases same
      obtain rfl := rightMeans.unique divisorMeans
      obtain ⟨_, _, dividendMeans, _, isUnit, product⟩ := Means.div_iff.mp leftMeans
      rcases of_decide_eq_true can with nonzero | divisorKnown | dividendZero
      · contradiction
      · rw [unknown] at divisorKnown
        contradiction
      · obtain rfl := dividendMeans.unique (means_of_exactValue? dividendZero)
        exact isUnit.mul_left_eq_zero.mp product
  | _ => cases same

/-- A move leads to an equation that gives the goal if it holds. -/
theorem Moves.leads (moves : Moves name left right rest compute)
    (mentioned : name ∈ rest.occurrences) (leads : Leads name solution goal left right) :
    compute.Ensures Holding fun inverse =>
      Holding (.peeled left rest inverse) → Leads name solution goal rest inverse := by
  rcases leads with known | ⟨first, second, leftMeans, rightMeans, can, gives⟩
  · exact fun _ _ _ => .inl known
  have admits (step : Step) (holding : Holding step) :
      (Reading.exactAt name solution).allowed step := holding.1
  cases moves with
  | transpose transposes =>
      rcases transposes.defined_or_eq mentioned leftMeans rightMeans can with defined | equal
      · refine (perform_means admits fun _ => defined).mono ?_
        rintro inverse ⟨value, operationMeans, inverseMeans⟩ ⟨_, holds⟩
        obtain ⟨restValue, restMeans, equivalent⟩ :=
          transposes.holds_iff rightMeans operationMeans leftMeans
        obtain ⟨exact, exactEq, restCan⟩ := canEqual_iff.mp holds
        obtain rfl := inverseMeans.unique (means_of_exactValue? exactEq)
        exact .inr ⟨restValue, value, restMeans, inverseMeans, restCan, gives ∘ equivalent.mpr⟩
      · exact fun _ _ _ => .inl (gives equal)
  | square =>
      obtain ⟨base, n, baseMeans, ⟨_, _, ⟨⟩⟩, power⟩ := Means.pow_iff.mp leftMeans
      obtain rfl := power.unique (.of_natural base (by decide))
      refine (sqrt_means rightMeans).mono fun inverse root => ?_
      rintro ⟨_, holds⟩
      obtain ⟨exact, exactEq, restCan⟩ := canEqual_iff.mp holds
      refine .inr ⟨base, exact, baseMeans, means_of_exactValue? exactEq, restCan, ?_⟩
      rintro rfl
      exact gives ((pow_two base).trans (root base exactEq))
  | root =>
      obtain ⟨argument, argumentMeans, found⟩ := Means.call_iff.mp leftMeans
      obtain ⟨principal, square⟩ := principalRoot?_eq_some found
      have operationMeans : Means (.exactAt name solution) (.arith .pow right (.int 2))
          (second ^ 2) :=
        .pow rightMeans (by decide) (.of_natural second (by decide))
      refine ((arithmetic_means operationMeans).restrict admits).mono fun inverse inverseMeans => ?_
      rintro ⟨_, holds⟩
      obtain ⟨exact, exactEq, restCan⟩ := canEqual_iff.mp holds
      obtain rfl := inverseMeans.unique (means_of_exactValue? exactEq)
      refine .inr ⟨argument, second ^ 2, argumentMeans, inverseMeans, restCan, ?_⟩
      rintro rfl
      exact gives (principal.eq_of_square (of_decide_eq_true can) (square.trans (pow_two second)))

/-! ## The run -/

/-- The number that a result states as the solution for a variable. -/
def statedSolution? (name : String) : Expr → Option Number
  | .relation .equal (.var other _) (.number solution _) _ =>
      if other = name then some solution else none
  | _ => none

/-- An equation between a number and a radical that mentions a variable just once and no
other variable. -/
structure IsRadicalEquation (name : String) (tree : Expr) (given : Number) (equation : Expr) :
    Prop where
  radical : tree.isRadical = true
  single : tree.occurrences = [name]
  sides : ∃ inner mark, equation = .relation .equal tree (.number given inner) mark ∨
    equation = .relation .equal (.number given inner) tree mark

variable {equation : Expr} {given : Number} {relates : Expr → Expr → Prop}
  {condition : Number → Prop}

theorem statedSolution?_eq_some {number : Number} :
    tree.statedSolution? name = some number ↔ ∃ inner middle outer,
      tree = .relation .equal (.var name inner) (.number number middle) outer := by
  constructor
  · intro stated
    unfold statedSolution? at stated
    split at stated
    · obtain ⟨rfl, ⟨⟩⟩ := Option.ite_none_right_eq_some.mp stated
      exact ⟨_, _, _, rfl⟩
    · cases stated
  · rintro ⟨inner, middle, outer, rfl⟩
    simp [statedSolution?]

/-- A relation of the sides that every step of a run keeps and that gives a condition on
the solution once the variable is isolated. -/
theorem run_invariant
    (keeps : ∀ {left right rest compute}, relates left right →
      Moves name left right rest compute → name ∈ rest.occurrences →
        compute.Ensures Holding fun inverse =>
          Holding (.peeled left rest inverse) → relates rest inverse)
    (stops : ∀ {number inner middle}, relates (.var name inner) (.number number middle) →
      condition number) :
    RunInvariant name Holding
      (fun left right => left.isRadical = true ∧ left.occurrences.count name = 1 ∧
        relates left right)
      (fun result => ∀ number, result.statedSolution? name = some number → condition number) where
  radical := And.left
  keeps {left right rest compute} holds moves := by
    obtain ⟨radical, once, related⟩ := holds
    obtain ⟨restRadical, _, sameCount⟩ := moves.part radical
    have restOnce := sameCount.trans once
    have mentioned : name ∈ rest.occurrences := List.count_pos_iff.mp (by omega)
    refine (keeps related moves mentioned).mono fun inverse next admitted => ?_
    split
    · rename_i isError
      intro number stated
      obtain ⟨_, _, _, rfl⟩ := statedSolution?_eq_some.mp stated
      contradiction
    · exact ⟨restRadical, restOnce, next admitted⟩
  stops {left right} holds isolated := by
    obtain ⟨_, once, related⟩ := holds
    have view := isolated once
    obtain ⟨inner, rfl⟩ := eq_of_asVar? view
    refine solved_states.mono fun result states number stated => ?_
    obtain ⟨outer, rfl⟩ := states.2 view
    obtain ⟨_, middle, _, ⟨⟩⟩ := statedSolution?_eq_some.mp stated
    exact stops related

theorem IsRadicalEquation.solve (isRadical : IsRadicalEquation name tree given equation)
    (relates : Expr → Expr → Prop)
    (keeps : ∀ {left right rest compute}, relates left right →
      Moves name left right rest compute → name ∈ rest.occurrences →
        compute.Ensures Holding fun inverse =>
          Holding (.peeled left rest inverse) → relates rest inverse)
    (stops : ∀ {number inner middle}, relates (.var name inner) (.number number middle) →
      condition number)
    (starts : ∀ mark, relates tree (.number given mark)) :
    (equation.solve name).Ensures Holding fun result =>
      ∀ number, result.statedSolution? name = some number → condition number := by
  obtain ⟨radical, single, inner, mark, sides⟩ := isRadical
  have once : tree.occurrences.count name = 1 := by simp [single]
  have mentioned : name ∈ tree.occurrences := by simp [single]
  have absent : name ∉ (Expr.number given inner).occurrences := by simp
  have presence : tree.presence name = if name ∈ tree.occurrences then .found else .absent :=
    presence_eq radical
  have holds : RunInvariant name Holding _ _ := run_invariant keeps stops
  rcases sides with rfl | rfl
  · exact holds.solve presence rfl (fun _ _ => ⟨radical, once, starts inner⟩)
      (fun free => absurd mentioned free) fun both => absurd (both.mp mentioned) absent
  · exact holds.solve rfl presence (fun member => absurd member absent)
      (fun _ _ => ⟨radical, once, starts inner⟩) fun both => absurd (both.mpr mentioned) absent

/-- Every solution that is stated is exact. -/
theorem IsRadicalEquation.solve_exact (isRadical : IsRadicalEquation name tree given equation)
    (exact : (Expr.number given).exactValue? = some first) :
    (equation.solve name).Ensures Holding fun result => ∀ number,
      result.statedSolution? name = some number → ∃ value, number.Represents value := by
  refine isRadical.solve (fun _ right => ∃ value, right.exactValue? = some value) ?_ ?_
    fun _ => ⟨first, exact⟩
  · intro left right rest compute _ _ _ start _ holding
    obtain ⟨value, exact, _⟩ := canEqual_iff.mp holding.2
    exact ⟨value, exact⟩
  · rintro number inner middle ⟨value, exact⟩
    exact ⟨value, Option.ite_none_right_eq_some.mp exact⟩

/-- A run leads from an equation to its solution, and backwards from there. -/
theorem IsRadicalEquation.solve_leads (isRadical : IsRadicalEquation name tree given equation)
    (leads : ∀ mark, Leads name solution goal tree (.number given mark)) :
    (equation.solve name).Ensures Holding fun result => ∀ number,
      result.statedSolution? name = some number → number.value? = some solution → goal := by
  refine isRadical.solve (Leads name solution goal)
    (fun leads moves mentioned => moves.leads mentioned leads) ?_ leads
  rintro number inner middle (known | ⟨first, second, leftMeans, rightMeans, _, gives⟩) denotes
  · exact known
  · have found : some solution = some first := by
      simpa [Reading.exactAt, Reading.exact] using Means.var_iff.mp leftMeans
    obtain ⟨_, rightDenotes⟩ := (Means.number_iff.mp rightMeans).value?_eq
    exact gives (Option.some.inj (found.symm.trans (denotes.symm.trans rightDenotes)))

/-! ## Values at the solution -/

/-- Where a radical is computed exactly, the computed number has its value. -/
theorem exists_means_of_exactNumber? {number result : Number} {mark : Mark}
    (radical : tree.isRadical = true) (represents : number.Represents solution)
    (computed : (tree.plugged name (.number number mark)).exactNumber? = some result) :
    ∃ value, Means (.exactAt name solution) tree value ∧
      (Reading.exactAt name solution).Reads result value := by
  fun_induction isRadical tree generalizing result with
  | case1 literal own =>
      obtain ⟨rfl, _⟩ := exactNumber?_number.mp computed
      obtain ⟨fraction, isFraction⟩ := Number.isFraction_iff.mp radical
      have reads : (Reading.exactAt name solution).Reads literal ⟨fraction, 0⟩ :=
        .inl ⟨fraction, isFraction, rfl⟩
      exact ⟨_, .number reads, reads⟩
  | case2 other own =>
      have view : (Expr.var other own).asVar? = some other := rfl
      rw [plugged_leaf rfl, view] at computed
      by_cases same : other = name
      · subst same
        rw [if_pos rfl] at computed
        obtain ⟨rfl, _⟩ := exactNumber?_number.mp computed
        exact ⟨solution, .var (if_pos rfl), represents.reads⟩
      · rw [if_neg fun found => same (Option.some.inj found)] at computed
        cases computed
  | case3 operand own ih =>
      obtain ⟨x, operandComputed, rfl, exact⟩ := exactNumber?_neg.mp computed
      obtain ⟨value, means, reads⟩ := ih radical operandComputed
      exact ⟨-value, .neg means, reads.neg fun _ => exact⟩
  | case4 base exponent own ih =>
      obtain ⟨baseRadical, two⟩ := Bool.and_eq_true_iff.mp radical
      obtain ⟨inner, rfl⟩ := eq_of_asInt? (of_decide_eq_true two)
      obtain ⟨x, _, baseComputed, exponentComputed, rfl, exact⟩ := exactNumber?_arith.mp computed
      obtain ⟨rfl, _⟩ := exactNumber?_number.mp exponentComputed
      obtain ⟨first, baseMeans, baseReads⟩ := ih baseRadical baseComputed
      have square : IsPower first 2 (first ^ 2) := .of_natural first (by decide)
      exact ⟨first ^ 2, .pow baseMeans (by decide) square, baseReads.pow exact square⟩
  | case5 op left right own notPower leftIH rightIH =>
      obtain ⟨leftRadical, rightRadical⟩ := Bool.and_eq_true_iff.mp radical
      obtain ⟨x, y, leftComputed, rightComputed, rfl, exact⟩ := exactNumber?_arith.mp computed
      obtain ⟨first, leftMeans, leftReads⟩ := leftIH leftRadical leftComputed
      obtain ⟨second, rightMeans, rightReads⟩ := rightIH rightRadical rightComputed
      -- The node has a value over any operands of these values, also over the numbers.
      obtain ⟨value, node⟩ : ∃ value, ∀ {left right : Expr} {mark : Mark},
          Means (.exactAt name solution) left first → Means (.exactAt name solution) right second →
            Means (.exactAt name solution) (.arith op left right mark) value := by
        cases op with
        | add => exact ⟨_, .add⟩
        | sub => exact ⟨_, .sub⟩
        | mul => exact ⟨_, .mul⟩
        | div =>
            have nonzero : second ≠ 0 := by
              rintro rfl
              have inexact : (x.div y).isExact = false :=
                Number.div_zero_isExact rightReads.value?_eq.2
              exact absurd (exact.symm.trans inexact) (by decide)
            exact ⟨first / second, fun left right => .div left right (IsUnit.mk0 second nonzero)
              (div_mul_cancel₀ first nonzero)⟩
        | pow => exact absurd rfl notPower
      have computedNode :
          Means (.exactAt name solution) (.arith op (.number x) (.number y)) value :=
        node (.number leftReads) (.number rightReads)
      exact ⟨value, node leftMeans rightMeans, computedNode.reads_of_isExact exact⟩
  | case6 argument own ih =>
      obtain ⟨x, argumentComputed, rfl, exact⟩ := exactNumber?_sqrt.mp computed
      obtain ⟨value, means, reads⟩ := ih radical argumentComputed
      obtain ⟨root, found, rootRepresents⟩ := reads.sqrt exact
      exact ⟨root, .call means found, rootRepresents.reads⟩
  | case7 => contradiction

/-- Computing does not see the marks of a substituted equation. -/
theorem computed_sides {substituted first second replacement : Expr} {mark : Mark}
    (same : substituted.unmarked =
      (Expr.relation .equal first second mark).plugged name replacement) :
    ∃ left right outer, substituted = .relation .equal left right outer ∧
      left.exactNumber? = (first.plugged name replacement).exactNumber? ∧
      right.exactNumber? = (second.plugged name replacement).exactNumber? := by
  cases substituted with
  | relation comparison left right outer =>
      obtain ⟨rfl, leftSame, rightSame, _⟩ := Expr.relation.inj
        (show Expr.relation comparison left.unmarked right.unmarked .unset =
          .relation .equal (first.plugged name replacement) (second.plugged name replacement) .unset
        from same)
      exact ⟨left, right, outer, rfl, by rw [← leftSame, exactNumber?_unmarked],
        by rw [← rightSame, exactNumber?_unmarked]⟩
  | _ => injection same

/-- Where the radical is computed exactly at the solution, it comes to the given number. -/
theorem IsRadicalEquation.value?_plugged {start : Nat} {number computed : Number} {mark : Mark}
    (isRadical : IsRadicalEquation name tree given equation)
    (possible : tree.canEqual (.number given) = true)
    (holding : ∀ step ∈ (equation.solve name).steps start,
      step.staysInRange = true ∧ step.canHold = true)
    (solved : ((equation.solve name).value start).statedSolution? name = some number)
    (treeComputed : (tree.plugged name (.number number mark)).exactNumber? = some computed) :
    computed.value? = given.value? := by
  obtain ⟨value, exact, can⟩ := canEqual_iff.mp possible
  obtain ⟨solution, represents⟩ := isRadical.solve_exact exact start holding number solved
  obtain ⟨result, means, reads⟩ :=
    exists_means_of_exactNumber? isRadical.radical represents treeComputed
  have leads (mark : Mark) : Leads name solution (result = value) tree (.number given mark) :=
    .inr ⟨result, value, means, means_of_exactValue? exact, can, id⟩
  obtain rfl := isRadical.solve_leads leads start holding number solved represents.2
  exact reads.value?_eq.2.trans (Option.ite_none_right_eq_some.mp exact).2.symm

end Expr

/-- A number that is found as the solution of an equation between a number and a radical
makes the equation evaluate to true in the place of the variable, whatever the controller,
if all numbers in this evaluation are exact, no number leaves the range while the equation
is solved, and this equation and all that it is transformed to can hold: their other sides
are exact values that the operation at the root of the radical can take, as a square root
takes only principal ones. -/
theorem radical_solution_holds (tree equation : Expr) (name : String) (given solution : Number)
    (mark : Mark) (start marks : Nat)
    (isRadical : Expr.IsRadicalEquation name tree given equation)
    (possible : tree.canEqual (.number given) = true)
    (holding : ∀ step ∈ (equation.solve name).steps start,
      step.staysInRange = true ∧ step.canHold = true)
    (solved : ((equation.solve name).value start).statedSolution? name = some solution) :
    let substituted := ((equation.substitute name (.number solution mark)).run marks).1
    (∀ side ∈ substituted.children, side.exactNumber?.isSome = true) →
      ∀ (controller : Option Controller) (random : RandomSource) (marks fuel : Nat),
        substituted.size ≤ fuel → ∃ mark state,
          Expr.simplify? fuel controller random marks substituted =
            some (.bool true mark, state) := by
  intro substituted exact controller random marks fuel enough
  have plugged : substituted.unmarked = equation.plugged name (.number solution mark) :=
    Expr.unmarked_run_substitute _
  obtain ⟨value, givenExact, _⟩ := Expr.canEqual_iff.mp possible
  have denotes : given.value? = some value := (Option.ite_none_right_eq_some.mp givenExact).2
  have givenComputed : (Expr.number given .unset).exactNumber? = some given :=
    Expr.exactNumber?_number.mpr ⟨rfl, Number.isExact_iff_value?.mpr ⟨value, denotes⟩⟩
  have agrees {computed : Number}
      (treeComputed : (tree.plugged name (.number solution mark)).exactNumber? = some computed) :
      computed.value? = some value :=
    (isRadical.value?_plugged possible holding solved treeComputed).trans denotes
  have finishes : (Expr.evaluateTo controller fuel substituted).Finishes (fun _ => True) .empty
      fun result => ∃ mark, result = .bool true mark := by
    obtain ⟨_, _, rfl | rfl⟩ := isRadical.sides
    · obtain ⟨left, right, outer, equal, leftSame, rightSame⟩ := Expr.computed_sides plugged
      rw [equal] at exact enough ⊢
      obtain ⟨computed, leftComputed⟩ :=
        Option.isSome_iff_exists.mp (exact left List.mem_cons_self)
      exact Expr.evaluateTo_equation leftComputed (rightSame.trans givenComputed)
        (agrees (leftSame.symm.trans leftComputed)) denotes enough
    · obtain ⟨left, right, outer, equal, leftSame, rightSame⟩ := Expr.computed_sides plugged
      rw [equal] at exact enough ⊢
      obtain ⟨computed, rightComputed⟩ :=
        Option.isSome_iff_exists.mp (exact right (List.mem_cons_of_mem _ List.mem_cons_self))
      exact Expr.evaluateTo_equation (leftSame.trans givenComputed) rightComputed denotes
        (agrees (rightSame.symm.trans rightComputed)) enough
  obtain ⟨_, state, run, yields⟩ := finishes.simplify? random marks
  obtain ⟨mark, rfl⟩ := yields fun _ _ => trivial
  exact ⟨mark, state, run⟩

/-- The equation `sqrt (2 * x ^ 2 + 7) = 5` holds for the solution `x = 3`. -/
theorem square_below_root_is_solved :
    let tree : Expr := .call .sqrt
      (.arith .add (.arith .mul (.int 2) (.arith .pow (.var "x") (.int 2))) (.int 7))
    let equation : Expr := .relation .equal tree (.int 5)
    ((equation.solve "x").value 0).statedSolution? "x" = some (.int 3) ∧
      ∃ mark state, Expr.simplify? 20 none (.ofSeed 1) 0
        ((equation.substitute "x" (.int 3)).run 0).1 = some (.bool true mark, state) := by
  intro tree equation
  have isRadical : Expr.IsRadicalEquation "x" tree (.int 5) equation :=
    ⟨by decide +kernel, by decide +kernel, _, _, .inl rfl⟩
  have solved : ((equation.solve "x").value 0).statedSolution? "x" = some (.int 3) := by
    decide +kernel
  exact ⟨solved, radical_solution_holds tree equation "x" (.int 5) (.int 3) .initial 0 0 isRadical
    (by decide +kernel) (by decide +kernel) solved (by decide +kernel) none _ 0 20
    (by decide +kernel)⟩

/-- The equation `sqrt x = -3` is solved by `x = 9`, and does not hold there. -/
theorem negative_root_equation_fails_at_solution :
    let tree : Expr := .call .sqrt (.var "x")
    let equation : Expr := .relation .equal tree (.int (-3))
    Expr.IsRadicalEquation "x" tree (.int (-3)) equation ∧
      ((equation.solve "x").value 0).statedSolution? "x" = some (.int 9) ∧
      (∀ side ∈ ((equation.substitute "x" (.int 9)).run 0).1.children,
        side.exactNumber?.isSome = true) ∧
      (Expr.simplify? 20 none (.ofSeed 1) 0 ((equation.substitute "x" (.int 9)).run 0).1).map
        (·.1.asBool?) = some (some false) := by
  intro tree equation
  have isRadical : Expr.IsRadicalEquation "x" tree (.int (-3)) equation :=
    ⟨by decide +kernel, by decide +kernel, _, _, .inl rfl⟩
  have evaluated : (Expr.simplify? 20 none (.ofSeed 1) 0
      ((equation.substitute "x" (.int 9)).run 0).1).map (·.1.asBool?) = some (some false) := by
    decide +kernel
  exact ⟨isRadical, by decide +kernel, by decide +kernel, evaluated⟩

end SymbolicAlgebra
