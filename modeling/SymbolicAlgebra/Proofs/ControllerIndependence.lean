import SymbolicAlgebra.Proofs.ScratchPool
import SymbolicAlgebra.Proofs.Termination.Evaluation

/-!
# Formulas that no controller changes

A controller is asked for permission by loops, sums and lists of random numbers, and
looked at for its stop flag by these and by pauses.  A formula that holds none of these
gates has the same value under every controller, where the values in its scope hold none
either: its derivatives and solutions have no gates that it does not have itself.

All computations take their working lists from the pool of the controller.  What is in
the pool cannot change a result, for a list that is taken from it is always empty.
-/

namespace SymbolicAlgebra

namespace Expr

variable {tree : Expr} {name : String}

/-- The tree holds no loop, sum, pause or list of random numbers. -/
def Ungated (tree : Expr) : Prop := ∀ part ∈ tree.subtrees, part.isGate = false

instance (tree : Expr) : Decidable tree.Ungated :=
  inferInstanceAs (Decidable (∀ part ∈ tree.subtrees, part.isGate = false))

theorem ungated_iff :
    tree.Ungated ↔ tree.isGate = false ∧ ∀ child ∈ tree.children, child.Ungated := by
  constructor
  · exact fun ungated => ⟨ungated tree mem_subtrees_self, fun child member part below =>
      ungated part (subtrees_subset_of_mem_children member below)⟩
  · rintro ⟨open_, children⟩ part below
    rcases mem_subtrees_iff.mp below with rfl | ⟨child, member, deeper⟩
    · exact open_
    · exact children child member part deeper

namespace Ungated

theorem composed : Composed false Ungated where
  value {tree} isLeaf _ := by
    refine ungated_iff.mpr ⟨?_, by simp [children_leaf isLeaf]⟩
    cases tree <;> first | rfl | cases isLeaf
  node tree _ isOpen := by
    have notGate : tree.isGate = false := by simpa using isOpen
    exact ungated_iff.trans ⟨And.right, fun children => ⟨notGate, children⟩⟩

theorem leaf (isLeaf : tree.isLeaf = true) : tree.Ungated := by
  refine ungated_iff.mpr ⟨?_, by simp [children_leaf isLeaf]⟩
  cases tree <;> first | rfl | cases isLeaf

theorem diff {inner outer : Mark} (ungated : tree.Ungated) :
    (Expr.call₂ .diff tree (.var name inner) outer).Ungated :=
  ungated_iff.mpr ⟨rfl, List.forall_mem_cons.mpr
    ⟨ungated, List.forall_mem_singleton.mpr (leaf rfl)⟩⟩

theorem solution {inner outer : Mark} (ungated : tree.Ungated) :
    (Expr.call₂ .solve tree (.var name inner) outer).Ungated :=
  ungated_iff.mpr ⟨rfl, List.forall_mem_cons.mpr
    ⟨ungated, List.forall_mem_singleton.mpr (leaf rfl)⟩⟩

/-! ## Derivatives and solutions -/

theorem differentiateNode_ungated {derive : Expr → Traced Expr}
    (derives : ∀ tree : Expr, tree.Ungated → (derive tree).Ensures (fun _ => True) Ungated)
    (ungated : tree.Ungated) :
    (differentiateNode derive name tree).Ensures (fun _ => True) Ungated := by
  have unresolved : (tree.unresolvedDerivative name).Ensures Ungated := fun _ => ungated.diff
  have mentioned {rule : Traced Expr} {node : Expr} (keeps : rule.Ensures (fun _ => True) Ungated) :
      (if !node.containsVariable name then pure (.int 0) else rule).Ensures (fun _ => True)
        Ungated := by
    split
    · exact .pure composed.number
    · exact keeps
  have ⟨isOpen, parts⟩ := ungated_iff.mp ungated
  have child {part : Expr} (member : part ∈ tree.children) :
      (derive part).Ensures (fun _ => True) Ungated := derives part (parts part member)
  cases tree with
  | var | number | bool | char | text => exact .pure composed.number
  | error => exact .pure ungated
  | array items mark =>
      exact .bind (.forEach fun item member => child member) fun _ hold =>
        .make fun _ => composed.array.mpr hold
  | conditional test consequence alternative mark =>
      exact .bind (child (by simp [children])) fun _ first =>
        .bind (child (by simp [children])) fun _ second => .make fun _ =>
          composed.conditional.mpr ⟨parts test (by simp [children]), first, second⟩
  | whileLoop | forLoop | summation | pause => cases isOpen
  | assignment => exact .ofMarking unresolved
  | unary op operand mark =>
      cases op with
      | neg => exact mentioned (.bind (child (by simp [children])) fun _ derivative =>
          composed.neg_keeps derivative)
      | not => exact mentioned (.ofMarking unresolved)
  | arith op left right mark =>
      exact mentioned (composed.differentiateArith_keeps derives ungated
        (parts left (by simp [children])) (parts right (by simp [children])))
  | relation | connective => exact mentioned (.ofMarking unresolved)
  | call function argument mark =>
      exact mentioned (.bind (child (by simp [children])) fun _ inner =>
        composed.chainRule_keeps (parts argument (by simp [children])) inner fun _ => unresolved)
  | call₂ function first second mark =>
      cases function with
      | max | min =>
          have firstUngated := parts first (by simp [children])
          have secondUngated := parts second (by simp [children])
          exact mentioned (.bind (derives _ firstUngated) fun _ left =>
            .bind (derives _ secondUngated) fun _ right =>
              .bind (.make fun _ => composed.relation.mpr ⟨firstUngated, secondUngated⟩)
                fun _ test => .make fun _ => composed.conditional.mpr ⟨test, left, right⟩)
      | diff | solve => exact mentioned (.ofMarking unresolved)

/-- The derivative of a tree has no gates that the tree does not have. -/
theorem differentiate_ungated (ungated : tree.Ungated) :
    (tree.differentiate name).Ensures (fun _ => True) Ungated := by
  unfold differentiate
  generalize depthFor tree.size = depth
  induction depth generalizing tree with
  | zero => exact .make fun _ => composed.number
  | succ depth ih => exact differentiateNode_ungated (fun _ => ih) ungated

end Ungated

end Expr

/-! ## Equal runs -/

namespace Evaluation

variable {First Second : Type} {Holds : Expr → Prop}

/-- Started in a scope whose values have the property, both evaluations do the same, keep
that, and their result meets the condition. -/
def Coincide (Holds : Expr → Prop) (compute other : Evaluation First) (condition : First → Prop) :
    Prop :=
  ∀ state : EvalState, state.scope.AllBound Holds → compute.run state = other.run state ∧
    ∀ result after, compute.run state = some (result, after) →
      after.scope.AllBound Holds ∧ condition result

namespace Coincide

variable {condition : First → Prop} {later : Second → Prop}

theorem pure {value : First} (holds : condition value) :
    Coincide Holds (Pure.pure value) (Pure.pure value) condition := by
  refine fun state binds => ⟨rfl, ?_⟩
  rintro _ _ ⟨⟩
  exact ⟨binds, holds⟩

theorem bind {compute other : Evaluation First} {next otherNext : First → Evaluation Second}
    (coincide : Coincide Holds compute other condition)
    (continues : ∀ value, condition value → Coincide Holds (next value) (otherNext value) later) :
    Coincide Holds (compute >>= next) (other >>= otherNext) later := by
  intro state binds
  obtain ⟨same, keeps⟩ := coincide state binds
  rw [StateT.run_bind, StateT.run_bind, ← same]
  cases run : compute.run state with
  | none => exact ⟨rfl, nofun⟩
  | some outcome =>
      obtain ⟨value, between⟩ := outcome
      obtain ⟨betweenBinds, holds⟩ := keeps value between run
      exact continues value holds between betweenBinds

theorem ofTraced {computation : Traced First}
    (ensures : computation.Ensures (fun _ => True) condition) :
    Coincide Holds (Evaluation.ofTraced computation) (Evaluation.ofTraced computation)
      condition := by
  refine fun state binds => ⟨rfl, ?_⟩
  rintro _ _ ⟨⟩
  exact ⟨binds, ensures _ fun _ _ => trivial⟩

theorem ofMarking {compute : Marking First} (ensures : compute.Ensures condition) :
    Coincide Holds (liftM compute) (liftM compute) condition :=
  ofTraced (.ofMarking ensures)

theorem make {node : Expr} {condition : Expr → Prop}
    (holds : ∀ mark, condition (node.withMark mark)) :
    Coincide Holds (liftM (Expr.make node)) (liftM (Expr.make node)) condition :=
  ofMarking (.make holds)

theorem unfinished : Coincide Holds Evaluation.unfinished Evaluation.unfinished condition :=
  fun _ _ => ⟨rfl, nofun⟩

theorem changeScope {change : Scope → Scope}
    (binds : ∀ {scope : Scope}, scope.AllBound Holds → (change scope).AllBound Holds) :
    Coincide Holds (Evaluation.changeScope change) (Evaluation.changeScope change)
      fun _ => True := by
  refine fun state bound => ⟨rfl, ?_⟩
  rintro _ _ ⟨⟩
  exact ⟨binds bound, trivial⟩

theorem forEach {compute other : Expr → Evaluation Expr} {condition : Expr → Prop}
    {list : List Expr}
    (coincide : ∀ item ∈ list, Coincide Holds (compute item) (other item) condition) :
    Coincide Holds (Evaluation.forEach compute list) (Evaluation.forEach other list)
      (∀ result ∈ ·, condition result) := by
  induction list with
  | nil => exact pure (List.forall_mem_nil _)
  | cons item list ih =>
      rw [List.forall_mem_cons] at coincide
      exact bind coincide.1 fun _ holds => bind (ih coincide.2) fun _ rest =>
        pure (List.forall_mem_cons.mpr ⟨holds, rest⟩)

theorem inFrame {compute other : Evaluation First}
    (coincide : Coincide Holds compute other condition) :
    Coincide Holds (Evaluation.inFrame compute) (Evaluation.inFrame other) condition :=
  .bind (.changeScope Scope.AllBound.push) fun _ _ => .bind coincide fun _ holds =>
    .bind (.changeScope Scope.AllBound.pop) fun _ _ => .pure holds

end Coincide

end Evaluation

namespace Expr

open Evaluation (Coincide)

variable {tree : Expr} {name : String} {evaluate other : Expr → Evaluation Expr}

/-! ## Nodes -/

/-- Both evaluations do the same on all trees without gates. -/
def CoincideOnUngated (evaluate other : Expr → Evaluation Expr) : Prop :=
  ∀ tree : Expr, tree.Ungated → Coincide Ungated (evaluate tree) (other tree) Ungated

theorem resolve_coincide (coincide : CoincideOnUngated evaluate other) {leaf : Expr}
    (ungated : leaf.Ungated) :
    Coincide Ungated (resolve evaluate leaf name) (resolve other leaf name) Ungated := by
  intro state binds
  unfold resolve
  simp only [StateT.run_bind, StateT.run_get, Option.pure_def, Option.bind_eq_bind,
    Option.bind_some]
  split
  · exact Coincide.pure ungated state binds
  · rename_i inner value outer found
    obtain ⟨frames, frame, member, binding, bound, rfl⟩ := Scope.split?_eq_some found
    have valueUngated : binding.2.Ungated :=
      binds frame (frames ▸ List.mem_append_left _ member) binding bound
    split
    · exact Coincide.pure valueUngated state binds
    · have outside : (Scope.ofFrames outer).AllBound Ungated :=
        .ofFrames fun frame member => binds frame (frames ▸ List.mem_append_right _ member)
      have rejoins {scope : Scope} (inside : scope.AllBound Ungated) :
          (if outer.isEmpty then state.scope
            else Scope.ofFrames (inner ++ scope.frames)).AllBound Ungated := by
        split
        · exact binds
        · refine .ofFrames fun frame member => ?_
          rcases List.mem_append.mp member with isInner | isOuter
          · exact binds frame (frames ▸ List.mem_append_left _ isInner)
          · exact inside frame isOuter
      exact Coincide.bind (coincide _ valueUngated)
        (fun _ holds => .bind (.changeScope rejoins) fun _ _ => .pure holds)
        { state with scope := Scope.ofFrames outer } outside

theorem evaluateDerivative_coincide (coincide : CoincideOnUngated evaluate other) {second : Expr}
    (ungated : tree.Ungated) :
    Coincide Ungated (evaluateDerivative evaluate tree second)
      (evaluateDerivative other tree second) Ungated := by
  cases second with
  | var name mark =>
      refine .bind (.ofTraced ungated.differentiate_ungated) fun derivative holds => ?_
      split
      · exact .pure holds
      · exact coincide derivative holds
  | _ => exact .make fun _ => Ungated.composed.error

theorem evaluateSolution_coincide (coincide : CoincideOnUngated evaluate other)
    {equation unknown : Expr} (ungated : equation.Ungated) :
    Coincide Ungated (evaluateSolution evaluate equation unknown)
      (evaluateSolution other equation unknown) Ungated := by
  unfold evaluateSolution
  split
  · rename_i name mark
    have bound {scope : Scope} (binds : scope.AllBound Ungated) :
        (scope.bind name (.var name mark)).AllBound Ungated := binds.bind (.leaf rfl)
    exact .bind (.inFrame (.bind (.changeScope bound) fun _ _ => coincide equation ungated))
      fun _ holds => .ofTraced (Ungated.composed.solve_keeps (fun kept => kept.solution) holds)
  · exact .make fun _ => Ungated.composed.error

theorem evaluateConditional_coincide {test consequence alternative : Expr}
    (testCoincides : Coincide Ungated (evaluate test) (other test) Ungated)
    (first : Coincide Ungated (evaluate consequence) (other consequence) Ungated)
    (second : Coincide Ungated (evaluate alternative) (other alternative) Ungated) :
    Coincide Ungated (evaluateConditional evaluate test consequence alternative)
      (evaluateConditional other test consequence alternative) Ungated := by
  refine .bind testCoincides fun decision holds => ?_
  split
  · exact first
  · exact second
  · split
    · exact .pure holds
    · split
      · exact .make fun _ => Ungated.composed.error
      · exact .bind first fun _ firstHolds => .bind second fun _ secondHolds =>
          .make fun _ => Ungated.composed.conditional.mpr ⟨holds, firstHolds, secondHolds⟩

/-- Without gates, neither the controller nor the fuel for loops is looked at. -/
theorem evaluateNode_coincide (coincide : CoincideOnUngated evaluate other)
    (first second : Option Controller) (fuel : Nat) (ungated : tree.Ungated) :
    Coincide Ungated (evaluateNode first fuel evaluate tree) (evaluateNode second fuel other tree)
      Ungated := by
  have composed := Ungated.composed
  have ⟨isOpen, parts⟩ := ungated_iff.mp ungated
  have child {part : Expr} (member : part ∈ tree.children) :
      Coincide Ungated (evaluate part) (other part) Ungated := coincide part (parts part member)
  cases tree with
  | var name mark => exact resolve_coincide coincide ungated
  | number | bool | char | text | error => exact .pure ungated
  | array items mark =>
      exact .bind (.forEach fun item member => child member) fun _ hold =>
        .make fun _ => composed.array.mpr hold
  | unary op operand mark =>
      have evaluated := child (by simp [children] : operand ∈ _)
      cases op with
      | neg => exact .bind evaluated fun _ holds => .ofTraced (composed.neg_keeps holds)
      | not => exact .bind evaluated fun _ holds => .ofMarking (composed.negation_keeps holds)
  | arith op left right mark =>
      exact .bind (child (by simp [children])) fun _ leftHolds =>
        .bind (child (by simp [children])) fun _ rightHolds =>
          .ofTraced (composed.arithmetic_keeps leftHolds rightHolds)
  | relation comparison left right mark =>
      exact .bind (child (by simp [children])) fun _ leftHolds =>
        .bind (child (by simp [children])) fun _ rightHolds =>
          .ofMarking (composed.compareBy_keeps leftHolds rightHolds)
  | connective link left right mark =>
      refine .bind (child (by simp [children])) fun value leftHolds => ?_
      split
      · exact .pure leftHolds
      · exact .bind (child (by simp [children])) fun _ rightHolds =>
          .ofMarking (composed.connect_keeps leftHolds rightHolds)
  | call function argument mark =>
      refine .bind (child (by simp [children])) fun value holds => ?_
      cases function with
      | randList => cases isOpen
      | _ => exact .ofTraced (composed.applyOne_keeps rfl holds)
  | call₂ function left right mark =>
      cases function with
      | max | min =>
          exact .bind (child (by simp [children])) fun _ leftHolds =>
            .bind (child (by simp [children])) fun _ rightHolds =>
              .ofTraced (composed.applyTwo_keeps (fun _ => rfl) leftHolds rightHolds)
      | diff => exact evaluateDerivative_coincide coincide (parts left (by simp [children]))
      | solve => exact evaluateSolution_coincide coincide (parts left (by simp [children]))
  | conditional test consequence alternative mark =>
      exact evaluateConditional_coincide (child (by simp [children])) (child (by simp [children]))
        (child (by simp [children]))
  | whileLoop | forLoop | summation | pause => cases isOpen
  | assignment target value mark =>
      cases target with
      | var name inner =>
          refine .bind (child (by simp [children])) fun result holds =>
            .bind (.changeScope fun binds => binds.assign holds) fun _ _ => .pure holds
      | _ => exact .make fun _ => composed.error

/-! ## Evaluation -/

theorem evaluateTo_coincide (first second : Option Controller) (fuel : Nat) :
    CoincideOnUngated (evaluateTo first fuel) (evaluateTo second fuel) := by
  induction fuel with
  | zero => exact fun _ _ => .unfinished
  | succ fuel ih => exact fun _ ungated => evaluateNode_coincide ih first second fuel ungated

theorem evaluate?_coincide (first second : Option Controller) {scope : Scope}
    (ungated : tree.Ungated) (binds : scope.AllBound Ungated) (random : RandomSource)
    (marks fuel : Nat) :
    evaluate? fuel first scope random marks tree = evaluate? fuel second scope random marks tree :=
  (evaluateTo_coincide first second fuel tree ungated (.start scope random marks) binds).1

/-- The controller does not matter to formulas without gates, where the values in scope
have none either.  With enough fuel the evaluation comes to one result and one scope under
all controllers and under none; for every fuel, all controllers give the same outcome.
Working lists come from the pool: however a controller has been used, each list that the
evaluation takes is the one that the pool hands out, and it is empty. -/
theorem controller_is_invisible (tree : Expr) (scope : Scope) (random : RandomSource)
    (marks : Nat) (ungated : tree.Ungated) (binds : scope.AllBound Ungated) :
    (∃ result state needed, ∀ fuel, needed ≤ fuel → ∀ controller : Option Controller,
      evaluate? fuel controller scope random marks tree = some (result, state)) ∧
    (∀ (fuel : Nat) (first second : Option Controller),
      evaluate? fuel first scope random marks tree =
        evaluate? fuel second scope random marks tree) ∧
    ∀ (controller : Controller) (fuel : Nat) (result : Expr) (state : EvalState)
      (taken rest : List Step) (found : List Expr), controller.Reachable →
        evaluate? fuel (some controller) scope random marks tree = some (result, state) →
          state.trace = taken ++ .checkout found :: rest →
            (controller.replay taken).checkout.1 = found ∧ found = [] := by
  have same (fuel : Nat) (first second : Option Controller) :
      evaluate? fuel first scope random marks tree =
        evaluate? fuel second scope random marks tree :=
    evaluate?_coincide first second ungated binds random marks fuel
  have refused : loopsAllowed none = false := rfl
  obtain ⟨result, state, needed, enough⟩ := evaluate?_concludes refused scope random marks tree
  refine ⟨⟨result, state, needed, fun fuel sufficient controller => ?_⟩, same, ?_⟩
  · rw [same fuel controller none]
    exact enough fuel sufficient
  · intro controller _ _ _ taken rest found reachable returns trace
    have isTaken : .checkout found ∈ taken ++ .checkout found :: rest := by simp
    have isEmpty : found = [] := (evaluate?_nests returns).found_eq_nil (trace ▸ isTaken)
    exact ⟨isEmpty ▸ (reachable.tidy.replay taken).checkout_empty, isEmpty⟩

/-- A derivative and a solution, where `x` is bound to a sum: a controller that has been
told to stop, whose pool has been filled by an evaluation, and no controller at all. -/
theorem derivative_and_solution_hide_controller :
    let tree : Expr := .array [.call₂ .diff (.arith .mul (.var "x") (.var "x")) (.var "x"),
      .call₂ .solve (.relation .equal (.arith .add (.var "u") (.int 1)) (.var "x")) (.var "u")]
    let scope : Scope := ⟨[("x", .arith .add (.var "z") (.int 2))], []⟩
    let controller := Controller.permissive.stop.giveBack [.int 3]
    tree.Ungated ∧ scope.AllBound Ungated ∧ controller.Reachable ∧ controller.pooled = 1 ∧
      evaluate? 20 (some controller) scope (.ofSeed 0) 0 tree =
        evaluate? 20 none scope (.ofSeed 0) 0 tree ∧
      ∃ result state,
        evaluate? 20 (some controller) scope (.ofSeed 0) 0 tree = some (result, state) ∧
        ∀ taken rest found, state.trace = taken ++ .checkout found :: rest →
          (controller.replay taken).checkout.1 = found ∧ found = [] := by
  intro tree scope controller
  have ungated : tree.Ungated := by decide +kernel
  have binds : scope.AllBound Ungated := by decide +kernel
  have reachable : controller.Reachable := .giveBack _ (.stop .permissive)
  obtain ⟨-, same, empty⟩ := controller_is_invisible tree scope (.ofSeed 0) 0 ungated binds
  have returns : (evaluate? 20 (some controller) scope (.ofSeed 0) 0 tree).isSome = true := by
    decide +kernel
  obtain ⟨⟨result, state⟩, run⟩ := Option.isSome_iff_exists.mp returns
  exact ⟨ungated, binds, reachable, rfl, same 20 _ _, result, state, run,
    fun taken rest found => empty controller 20 result state taken rest found reachable run⟩

end Expr

end SymbolicAlgebra
