import SymbolicAlgebra.Proofs.ShadowedBindings
import SymbolicAlgebra.Proofs.Substitution

/-!
# Constants put in place of variables

A constant may be put in the places of a variable before an evaluation, or bound to the
variable in the current frame.  Where nothing in the formula binds a name, the two
evaluations go the same way: they end with the same result, having given out the same
marks and taken the same steps, and their scopes differ in this binding only.

A variable meets its binding in the current frame before any other.  The value of
another variable is evaluated in the frames outside the one that binds it, which the
current frame is never among, so it does not matter whether that value mentions the
variable.
-/

namespace SymbolicAlgebra

/-! ## Runs with the binding and without -/

/-- The state with a value bound to a name in the current frame. -/
def EvalState.bind (state : EvalState) (name : String) (value : Expr) : EvalState :=
  { state with scope := state.scope.bind name value }

namespace Evaluation

variable {First Second : Type} {name : String} {value : Expr}

theorem run_changeScope (change : Scope → Scope) (state : EvalState) :
    (changeScope change).run state = some ((), { state with scope := change state.scope }) :=
  rfl

/-- Started with the binding, the first evaluation does what the second one does without,
and the binding is still there at the end. -/
def Mirrors (name : String) (value : Expr) (compute other : Evaluation First) : Prop :=
  ∀ state : EvalState, compute.run (state.bind name value) =
    (other.run state).map fun (result, after) => (result, after.bind name value)

namespace Mirrors

theorem pure {result : First} : Mirrors name value (Pure.pure result) (Pure.pure result) :=
  fun _ => rfl

theorem bind {compute other : Evaluation First} {next otherNext : First → Evaluation Second}
    (mirrors : Mirrors name value compute other)
    (continues : ∀ result, Mirrors name value (next result) (otherNext result)) :
    Mirrors name value (compute >>= next) (other >>= otherNext) := by
  intro state
  rw [StateT.run_bind, StateT.run_bind, mirrors state]
  cases other.run state with
  | none => rfl
  | some outcome => exact continues outcome.1 outcome.2

theorem ofTraced {computation : Traced First} :
    Mirrors name value (Evaluation.ofTraced computation) (Evaluation.ofTraced computation) :=
  fun _ => rfl

theorem ofMarking {compute : Marking First} :
    Mirrors name value (liftM compute) (liftM compute) :=
  ofTraced

theorem unfinished :
    Mirrors name value (Evaluation.unfinished : Evaluation First) Evaluation.unfinished :=
  fun _ => rfl

theorem draw {count : Nat} :
    Mirrors name value (Evaluation.draw count) (Evaluation.draw count) :=
  fun _ => rfl

theorem isStopped {controller : Option Controller} :
    Mirrors name value (Evaluation.isStopped controller) (Evaluation.isStopped controller) :=
  fun _ => rfl

theorem forEach {compute other : Expr → Evaluation Expr} {items parts : List Expr}
    (mirrors : List.Forall₂ (fun item part => Mirrors name value (compute item) (other part))
      items parts) :
    Mirrors name value (Evaluation.forEach compute items) (Evaluation.forEach other parts) := by
  induction mirrors with
  | nil => exact pure
  | cons first _ ih => exact bind first fun _ => bind ih fun _ => pure

end Mirrors

end Evaluation

/-- The innermost frame is in front of the frames up to a binding, wherever this is. -/
theorem Scope.split?_cons (name : String) (frame : Frame) (rest : List Frame) :
    split? name (frame :: rest) =
      ((frame.lookup? name).elim (split? name rest) fun value => some ([], value, rest)).map
        fun (inner, value, outer) => (frame :: inner, value, outer) := by
  rw [split?]
  cases frame.lookup? name <;> rfl

namespace Expr

open Evaluation (Mirrors)

variable {controller : Option Controller} {evaluate : Expr → Evaluation Expr} {fuel : Nat}
  {name : String} {value : Expr} {tree other : Expr}

/-! ## Variables -/

/-- The variable itself is resolved to the constant. -/
theorem resolve_mirrors_constant (constant : value.isConstant = true) {leaf : Expr} :
    Mirrors name value (resolve evaluate leaf name) (pure value) := by
  intro state
  have bound : (state.bind name value).scope.lookup? name = some value := by
    rw [EvalState.bind, Scope.lookup?_bind, if_pos rfl]
  have final (found : Expr) (same : (state.bind name value).scope.lookup? name = some found) :
      Scope.IsFinal name found :=
    .inr (Option.some.inj (bound.symm.trans same) ▸ constant)
  rw [run_resolve final, bound]
  rfl

/-- Other variables have their values from the same frames. -/
theorem resolve_mirrors {leaf : Expr} {shown : String} (differs : name ≠ shown) :
    Mirrors name value (resolve evaluate leaf shown) (resolve evaluate leaf shown) := by
  rintro ⟨⟨current, enclosing⟩, random, looks, marks, steps⟩
  have split (frame : Frame) (same : frame.lookup? shown = current.lookup? shown) :
      Scope.split? shown (frame :: enclosing) =
        ((current.lookup? shown).elim (Scope.split? shown enclosing)
          fun value => some ([], value, enclosing)).map
            fun (inner, value, outer) => (frame :: inner, value, outer) := by
    rw [Scope.split?_cons, same]
  have bound := split (current.bind name value) (by rw [Frame.lookup?_bind, if_neg differs])
  have unbound := split current rfl
  generalize (current.lookup? shown).elim (Scope.split? shown enclosing)
    (fun value => some ([], value, enclosing)) = found at bound unbound
  simp only [resolve, StateT.run_bind, StateT.run_get, Option.pure_def, Option.bind_eq_bind,
    Option.bind_some, EvalState.bind, Scope.bind, Scope.frames, bound, unbound]
  rcases found with _ | ⟨inner, own, outer⟩
  · rfl
  dsimp only [Option.map_some]
  split
  · rfl
  -- The value is evaluated in the frames outside, and both scopes are put back around them.
  simp only [StateT.run_bind, Evaluation.run_changeScope, Option.bind_eq_bind, Option.bind_some]
  cases (evaluate own).run ⟨Scope.ofFrames outer, random, looks, marks, steps⟩ with
  | none => rfl
  | some outcome => cases outer <;> rfl

/-! ## Nodes -/

theorem drawRandomList_mirrors {length : Expr} :
    Mirrors name value (drawRandomList length) (drawRandomList length) := by
  unfold drawRandomList
  split
  · split
    · exact .bind .draw fun _ => .bind .ofMarking fun _ => .ofMarking
    · exact .ofMarking
  · split <;> exact .ofMarking

theorem applyFunctionWith_mirrors {function : Function} {arguments : List Expr} :
    Mirrors name value (applyFunctionWith controller function arguments)
      (applyFunctionWith controller function arguments) := by
  unfold applyFunctionWith
  split
  · split
    · exact drawRandomList_mirrors
    · exact .ofTraced
  · exact .ofTraced

theorem evaluateConditional_mirrors {test consequence alternative : Expr}
    {otherTest otherConsequence otherAlternative : Expr}
    (testMirrors : Mirrors name value (evaluate test) (evaluate otherTest))
    (first : Mirrors name value (evaluate consequence) (evaluate otherConsequence))
    (second : Mirrors name value (evaluate alternative) (evaluate otherAlternative)) :
    Mirrors name value (evaluateConditional evaluate test consequence alternative)
      (evaluateConditional evaluate otherTest otherConsequence otherAlternative) := by
  refine .bind testMirrors fun decision => ?_
  split
  · exact first
  · exact second
  · split
    · exact .pure
    · split
      · exact .ofMarking
      · exact .bind first fun _ => .bind second fun _ => .ofMarking

/-- The tree is made of leaves and of nodes that neither bind names nor hold a tree back
from evaluation. -/
def Straight (tree : Expr) : Prop :=
  ∀ node ∈ tree.subtrees, node.isLeaf = true ∨ node.isPlain = true

instance (tree : Expr) : Decidable tree.Straight :=
  inferInstanceAs (Decidable (∀ node ∈ tree.subtrees, node.isLeaf = true ∨ node.isPlain = true))

theorem Straight.of_mem_children {child : Expr} (straight : tree.Straight)
    (member : child ∈ tree.children) : child.Straight :=
  fun node below => straight node (subtrees_subset_of_mem_children member below)

/-- One level of evaluation, on nodes of one kind whose children behave alike. -/
theorem evaluateNode_mirrors (plain : tree.isPlain = true) (head : other.head = tree.head)
    (mirrors : List.Forall₂ (fun child part => Mirrors name value (evaluate child) (evaluate part))
      tree.children other.children) :
    Mirrors name value (evaluateNode controller fuel evaluate tree)
      (evaluateNode controller fuel evaluate other) := by
  have inner : other.isLeaf = false := by
    rw [Expr.isLeaf, head]
    exact isLeaf_of_isPlain plain
  rw [← ofParts_self inner, head]
  generalize other.children = parts at mirrors
  cases tree with
  | array items => exact .bind (.forEach mirrors) fun _ => .ofMarking
  | unary op operand =>
      obtain _ | ⟨inner, _ | _⟩ := mirrors
      cases op with
      | neg => exact .bind inner fun _ => .ofTraced
      | not => exact .bind inner fun _ => .ofMarking
  | arith op left right =>
      obtain _ | ⟨first, _ | ⟨second, _ | _⟩⟩ := mirrors
      exact .bind first fun _ => .bind second fun _ => .ofTraced
  | relation comparison left right =>
      obtain _ | ⟨first, _ | ⟨second, _ | _⟩⟩ := mirrors
      exact .bind first fun _ => .bind second fun _ => .ofMarking
  | connective link left right =>
      obtain _ | ⟨first, _ | ⟨second, _ | _⟩⟩ := mirrors
      refine .bind first fun decision => ?_
      split
      · exact .pure
      · exact .bind second fun _ => .ofMarking
  | call function argument =>
      obtain _ | ⟨inner, _ | _⟩ := mirrors
      exact .bind inner fun _ => applyFunctionWith_mirrors
  | call₂ function first second =>
      obtain _ | ⟨left, _ | ⟨right, _ | _⟩⟩ := mirrors
      cases function with
      | max | min => exact .bind left fun _ => .bind right fun _ => applyFunctionWith_mirrors
      | diff | solve => cases plain
  | conditional test consequence alternative =>
      obtain _ | ⟨decision, _ | ⟨first, _ | ⟨second, _ | _⟩⟩⟩ := mirrors
      exact evaluateConditional_mirrors decision first second
  | pause seconds =>
      obtain _ | ⟨inner, _ | _⟩ := mirrors
      exact .bind inner fun _ => .bind .isStopped fun _ => .ofTraced
  | _ => cases plain

theorem evaluateNode_constant (constant : value.isConstant = true) :
    evaluateNode controller fuel evaluate value = pure value := by
  cases value <;> first | rfl | cases constant

/-- A leaf is resolved to the constant, or it is left as it is by the substitution. -/
theorem evaluateNode_mirrors_leaf (constant : value.isConstant = true)
    (isLeaf : tree.isLeaf = true) :
    Mirrors name value (evaluateNode controller fuel evaluate tree)
      (evaluateNode controller fuel evaluate
        (if tree.asVar? = some name then value else tree)) := by
  cases tree with
  | var shown mark =>
      by_cases same : name = shown
      · subst same
        rw [asVar?, if_pos rfl, evaluateNode_constant constant]
        exact resolve_mirrors_constant constant
      · rw [asVar?, if_neg fun found => same (Option.some.inj found).symm]
        exact resolve_mirrors same
  | number | bool | char | text | error => exact .pure
  | _ => cases isLeaf

/-! ## Evaluation -/

theorem evaluateTo_mirrors (constant : value.isConstant = true) (straight : tree.Straight)
    (gives : SubstitutesTo name value tree other) :
    Mirrors name value (evaluateTo controller fuel tree) (evaluateTo controller fuel other) := by
  induction fuel generalizing tree other with
  | zero => exact .unfinished
  | succ fuel ih =>
      rcases straight tree mem_subtrees_self with isLeaf | plain
      · rw [gives.leaf isLeaf]
        exact evaluateNode_mirrors_leaf constant isLeaf
      · obtain ⟨head, children⟩ := gives.node (isLeaf_of_isPlain plain)
        refine evaluateNode_mirrors plain head ?_
        refine List.forall₂_iff_zip.mpr ⟨children.length_eq, fun paired => ?_⟩
        exact ih (straight.of_mem_children (List.of_mem_zip paired).1)
          (List.forall₂_iff_zip.mp children |>.2 paired)

/-- In a formula that neither binds names nor takes derivatives or solutions, a constant
may be put in the places of a variable instead of being bound to it in the current frame
of a scope: under any controller and with any fuel, the evaluations end with the same
result and leave the same state, up to the binding, or neither of them ends. -/
theorem substituted_constant_evaluates_as_bound (controller : Option Controller) (scope : Scope)
    (name : String) (value : Expr) (constant : value.isConstant = true) (tree : Expr)
    (straight : tree.Straight) (fuel : Nat) (random : RandomSource) (marks start : Nat) :
    let substituted := ((tree.substitute name value).run start).1
    evaluate? fuel controller (scope.bind name value) random marks tree =
      (evaluate? fuel controller scope random marks substituted).map
        fun (result, state) => (result, state.bind name value) :=
  evaluateTo_mirrors constant straight ⟨start, rfl⟩ (.start scope random marks)

/-- Five in place of `x` where `y` is bound to twice the `x` of the frame outside, in
`if(x > 4 or z, x + y, z)`. -/
theorem substituted_five_evaluates_as_bound :
    let x : Expr := .var "x"
    let scope : Scope := ⟨[("y", .arith .mul x (.int 2))], [[("x", .int 3)]]⟩
    let test : Expr := .connective .or (.relation .greater x (.int 4)) (.var "z")
    let tree : Expr := .conditional test (.arith .add x (.var "y")) (.var "z")
    let substituted := ((tree.substitute "x" (.int 5)).run 0).1
    let outcome := evaluate? 20 none (scope.bind "x" (.int 5)) (.ofSeed 0) 0 tree
    ((Expr.int 5).isConstant = true ∧ tree.Straight) ∧
      outcome.bind (·.1.asInt?) = some 11 ∧
        outcome = (evaluate? 20 none scope (.ofSeed 0) 0 substituted).map
          fun (result, state) => (result, state.bind "x" (.int 5)) := by
  intro x scope test tree substituted outcome
  have straight : tree.Straight := by decide +kernel
  have value : outcome.bind (·.1.asInt?) = some 11 := by decide +kernel
  exact ⟨⟨rfl, straight⟩, value, substituted_constant_evaluates_as_bound none scope "x" (.int 5)
    rfl tree straight 20 (.ofSeed 0) 0 0⟩

end Expr

end SymbolicAlgebra
