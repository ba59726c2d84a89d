import Mathlib.Data.Option.Basic
import SymbolicAlgebra.Proofs.FrameEffects

/-!
# Shadowed bindings

An evaluation reads a scope only through the innermost binding of each name, as long
as the values found there are final: constants, or the name itself as the unknown of
an equation.  Values that are hidden behind such a binding cannot be told from the
result of an evaluation that assigns nothing.

Hence the binding that a solution or a sum makes for its own name shields the formula
below it from what the scope around it binds to that name.  The statement is about
two runs, so the lemmas relate runs from two states: both end, or none does, and the
results and the traces are the same.
-/

namespace SymbolicAlgebra

/-! ## What a scope shows -/

theorem Frame.lookup?_bind (frame : Frame) (name other : String) (value : Expr) :
    (frame.bind name value).lookup? other =
      if name = other then some value else frame.lookup? other := by
  induction frame with
  | nil => by_cases same : name = other <;> simp [Frame.bind, Frame.lookup?, same]
  | cons binding frame ih =>
      obtain ⟨bound, old⟩ := binding
      unfold Frame.bind
      split
      · rename_i found
        by_cases same : name = other <;> simp [Frame.lookup?, found, same]
      · rename_i differs
        by_cases here : bound = other
        · have outside : ¬name = other := fun same => differs (here.trans same.symm)
          simp [Frame.lookup?, here, outside]
        · simpa [Frame.lookup?, here] using ih

namespace Scope

variable {scope other : Scope} {name : String} {value : Expr} {hidden fewer : Set String}

theorem lookup?_eq_map_split? (scope : Scope) (name : String) :
    scope.lookup? name = (split? name scope.frames).map fun found => found.2.1 := by
  rw [lookup?, lookupWithOuter?, Option.map_map]
  rfl

theorem map_split?_eq_findSome? (name : String) (frames : List Frame) :
    (split? name frames).map (fun found => found.2.1) = frames.findSome? (·.lookup? name) := by
  induction frames with
  | nil => rfl
  | cons frame frames ih =>
      rw [split?, List.findSome?_cons]
      cases frame.lookup? name with
      | some value => rfl
      | none => rw [← ih, Option.map_map]; rfl

/-- The value of a name is that in the innermost frame that binds it. -/
theorem lookup?_eq_findSome? (scope : Scope) (name : String) :
    scope.lookup? name = scope.frames.findSome? (·.lookup? name) := by
  rw [lookup?_eq_map_split?, map_split?_eq_findSome?]

theorem lookup?_push (scope : Scope) (name : String) :
    scope.push.lookup? name = scope.lookup? name := by
  rw [lookup?_eq_findSome?, lookup?_eq_findSome?]
  rfl

theorem lookup?_bind (scope : Scope) (name other : String) (value : Expr) :
    (scope.bind name value).lookup? other =
      if name = other then some value else scope.lookup? other := by
  rw [lookup?_eq_findSome?, lookup?_eq_findSome?, bind, frames, frames, List.findSome?_cons,
    List.findSome?_cons, Frame.lookup?_bind]
  by_cases same : name = other
  · rw [if_pos same, if_pos same]
  · rw [if_neg same, if_neg same]

/-- A value that is not evaluated when its name is looked up. -/
def IsFinal (name : String) (value : Expr) : Prop :=
  value.asVar? = some name ∨ value.isConstant = true

/-- The scopes show the same final values for all names but the hidden ones. -/
def SameView (hidden : Set String) (scope other : Scope) : Prop :=
  ∀ name ∉ hidden, scope.lookup? name = other.lookup? name ∧
    ∀ value, scope.lookup? name = some value → IsFinal name value

namespace SameView

theorem mono (same : SameView fewer scope other) (within : fewer ⊆ hidden) :
    SameView hidden scope other :=
  fun name shown => same name fun isHidden => shown (within isHidden)

theorem push (same : SameView hidden scope other) :
    SameView hidden scope.push other.push := by
  intro name shown
  rw [lookup?_push, lookup?_push]
  exact same name shown

/-- A name that both scopes bind to one final value is not hidden any more. -/
theorem bind (same : SameView hidden scope other) (final : IsFinal name value)
    (within : hidden ⊆ {name}) :
    SameView ∅ (scope.bind name value) (other.bind name value) := by
  intro shown _
  rw [lookup?_bind, lookup?_bind]
  split
  · rename_i isBound
    subst isBound
    exact ⟨rfl, fun _ found => Option.some.inj found ▸ final⟩
  · rename_i differs
    exact same shown fun isHidden => differs (within isHidden).symm

/-- Scopes of constants that differ in the values of some names only. -/
theorem of_rebinds (constant : scope.AllBound (·.isConstant = true))
    (differ : List.Forall₂ (Frame.Rebinds hidden) scope.frames other.frames) :
    SameView hidden scope other := by
  intro name shown
  constructor
  · have frameByFrame :
        other.frames.map (·.lookup? name) = scope.frames.map (·.lookup? name) :=
      map_eq_of_forall₂ (fun rebinds => rebinds.lookup? shown) differ
    rw [lookup?_eq_findSome?, lookup?_eq_findSome?]
    have shows (frames : List Frame) :
        frames.findSome? (·.lookup? name) = (frames.map (·.lookup? name)).findSome? id := by
      rw [List.findSome?_map]
      rfl
    rw [shows, shows, frameByFrame]
  · intro value found
    rw [lookup?_eq_findSome?] at found
    obtain ⟨frame, member, bound⟩ := List.exists_of_findSome?_eq_some found
    obtain ⟨binding, inFrame, rfl⟩ := Option.map_eq_some_iff.mp bound
    exact .inr (constant frame member binding (List.mem_of_find?_eq_some inFrame))

end SameView

end Scope

/-! ## Runs from two states -/

/-- The states show the same outside of the hidden names, and have looked at the stop
flag equally often, given out the same marks and taken the same steps. -/
structure EvalState.SameView (hidden : Set String) (first second : EvalState) : Prop where
  scope : Scope.SameView hidden first.scope second.scope
  looks : first.looks = second.looks
  marks : first.marks = second.marks
  steps : first.steps = second.steps

namespace Evaluation

variable {First Second : Type} {hidden between later : Set String}
  {controller : Option Controller}

/-- What the outcomes of two runs have in common: the result, and what their states
show.  The frames around the current one are the given ones. -/
structure SameOutcome (later : Set String) (enclosing otherEnclosing : List Frame)
    (left right : First × EvalState) : Prop where
  result : left.1 = right.1
  state : left.2.SameView later right.2
  enclosing : left.2.scope.enclosing = enclosing
  otherEnclosing : right.2.scope.enclosing = otherEnclosing

/-- The evaluation does not depend on the values of the hidden names, nor on the source
of random numbers, and at its end only names of the second set are hidden. -/
def Ignores (hidden later : Set String) (compute : Evaluation First) : Prop :=
  ∀ start other : EvalState, start.SameView hidden other →
    Option.Rel (SameOutcome later start.scope.enclosing other.scope.enclosing)
      (compute.run start) (compute.run other)

theorem rel_mono {Left Right : Type} {related wider : Left → Right → Prop} {left : Option Left}
    {right : Option Right} (both : Option.Rel related left right)
    (implies : ∀ value other, related value other → wider value other) :
    Option.Rel wider left right := by
  cases both with
  | some values => exact .some (implies _ _ values)
  | none => exact .none

theorem rel_bind {Left Right Image Other : Type} {related : Left → Right → Prop}
    {relatedNext : Image → Other → Prop} {left : Option Left} {right : Option Right}
    {next : Left → Option Image} {otherNext : Right → Option Other}
    (both : Option.Rel related left right)
    (continues : ∀ value other, related value other →
      Option.Rel relatedNext (next value) (otherNext other)) :
    Option.Rel relatedNext (left.bind next) (right.bind otherNext) := by
  cases both with
  | some values => exact continues _ _ values
  | none => exact .none

theorem map_eq_of_rel {Run Image : Type} {related : Run → Run → Prop} {view : Run → Image}
    {left right : Option Run} (both : Option.Rel related left right)
    (same : ∀ run other, related run other → view run = view other) :
    left.map view = right.map view := by
  cases both with
  | some runs => exact congrArg some (same _ _ runs)
  | none => rfl

namespace Ignores

theorem pure {value : First} : Ignores hidden hidden (Pure.pure value) :=
  fun _ _ same => .some ⟨rfl, same, rfl, rfl⟩

theorem bind {compute : Evaluation First} {next : First → Evaluation Second}
    (ignores : Ignores hidden between compute)
    (continues : ∀ value, Ignores between later (next value)) :
    Ignores hidden later (compute >>= next) := by
  intro start other same
  rw [StateT.run_bind, StateT.run_bind]
  refine rel_bind (ignores start other same) ?_
  rintro ⟨value, state⟩ ⟨_, otherState⟩ ⟨rfl, sameState, enclosing, otherEnclosing⟩
  refine rel_mono (continues value _ _ sameState) fun _ _ outcome => ?_
  exact ⟨outcome.result, outcome.state, outcome.enclosing.trans enclosing,
    outcome.otherEnclosing.trans otherEnclosing⟩

theorem mono {compute : Evaluation First} (ignores : Ignores hidden between compute)
    (within : between ⊆ later) : Ignores hidden later compute := by
  intro start other same
  refine rel_mono (ignores start other same) fun _ _ outcome => ?_
  exact ⟨outcome.result, { outcome.state with scope := outcome.state.scope.mono within },
    outcome.enclosing, outcome.otherEnclosing⟩

/-- What a computation gives may be used in what follows it. -/
theorem ofTraced_bind {computation : Traced First} {condition : First → Prop}
    {next : First → Evaluation Second}
    (ensures : computation.Ensures (fun _ => True) condition)
    (continues : ∀ value, condition value → Ignores hidden later (next value)) :
    Ignores hidden later (Evaluation.ofTraced computation >>= next) := by
  rintro ⟨scope, random, looks, marks, steps⟩ ⟨otherScope, otherRandom, _, _, _⟩
    ⟨same, rfl, rfl, rfl⟩
  exact continues _ (ensures marks fun _ _ => trivial)
    ⟨scope, random, looks, computation.marks marks, (computation.steps marks).reverse ++ steps⟩
    ⟨otherScope, otherRandom, looks, computation.marks marks,
      (computation.steps marks).reverse ++ steps⟩
    ⟨same, rfl, rfl, rfl⟩

theorem ofTraced {computation : Traced First} :
    Ignores hidden hidden (Evaluation.ofTraced computation) := by
  rintro ⟨scope, random, looks, marks, steps⟩ ⟨otherScope, otherRandom, _, _, _⟩
    ⟨same, rfl, rfl, rfl⟩
  exact .some ⟨rfl, ⟨same, rfl, rfl, rfl⟩, rfl, rfl⟩

theorem ofMarking {compute : Marking First} : Ignores hidden hidden (liftM compute) :=
  ofTraced

theorem unfinished : Ignores hidden later (Evaluation.unfinished : Evaluation First) :=
  fun _ _ _ => .none

/-- A look at the stop flag answers by the number of the looks before it. -/
theorem isStopped : Ignores hidden hidden (Evaluation.isStopped controller) := by
  rintro ⟨scope, random, looks, marks, steps⟩ ⟨otherScope, otherRandom, _, _, _⟩
    ⟨same, rfl, rfl, rfl⟩
  exact .some ⟨rfl, ⟨same, rfl, rfl, rfl⟩, rfl, rfl⟩

/-- Binding a name to a final value makes it a name that the scope shows. -/
theorem bindName {name : String} {value : Expr} (final : Scope.IsFinal name value)
    (within : hidden ⊆ {name}) :
    Ignores hidden ∅ (Evaluation.changeScope fun scope => scope.bind name value) :=
  fun _ _ same => .some ⟨rfl, { same with scope := same.scope.bind final within }, rfl, rfl⟩

theorem forEach {compute : Expr → Evaluation Expr} {list : List Expr}
    (ignores : ∀ item ∈ list, Ignores hidden hidden (compute item)) :
    Ignores hidden hidden (Evaluation.forEach compute list) := by
  induction list with
  | nil => exact pure
  | cons item list ih =>
      rw [List.forall_mem_cons] at ignores
      exact bind ignores.1 fun _ => bind (ih ignores.2) fun _ => pure

/-- What is hidden around a frame is hidden again when the frame is closed. -/
theorem inFrame (later : Set String) {compute : Evaluation First}
    (ignores : Ignores hidden later compute) :
    Ignores hidden hidden (Evaluation.inFrame compute) := by
  intro start other same
  have inside := ignores { start with scope := start.scope.push }
    { other with scope := other.scope.push } { same with scope := same.scope.push }
  refine rel_bind inside ?_
  rintro ⟨value, ⟨⟨current, _⟩, random, looks, marks, steps⟩⟩
    ⟨_, ⟨⟨otherCurrent, _⟩, otherRandom, _, _, _⟩⟩ ⟨rfl, ⟨_, rfl, rfl, rfl⟩, rfl, rfl⟩
  -- Both frames are closed, and the scopes of the start are left.
  exact .some ⟨rfl, ⟨same.scope, rfl, rfl, rfl⟩, rfl, rfl⟩

end Ignores

end Evaluation

namespace Expr

open Evaluation (Ignores)

variable {controller : Option Controller} {evaluate : Expr → Evaluation Expr} {fuel bound : Nat}
  {loops : Bool} {hidden here : Set String} {tree : Expr} {name : String}

/-- Nothing is assigned by the evaluation of the trees that it is given, and what their
scopes hide does not matter. -/
def IgnoresHidden (loops : Bool) (evaluate : Expr → Evaluation Expr) : Prop :=
  ∀ {here : Set String} {bound : Nat} {tree : Expr}, Confined loops ∅ bound here tree →
    Ignores ∅ ∅ (evaluate tree)

/-- A variable shows its value when that is final, and itself when it has none. -/
theorem run_resolve {leaf : Expr} {state : EvalState}
    (final : ∀ value, state.scope.lookup? name = some value → Scope.IsFinal name value) :
    (resolve evaluate leaf name).run state =
      some ((state.scope.lookup? name).getD leaf, state) := by
  rw [Scope.lookup?_eq_map_split?] at final ⊢
  simp only [resolve, StateT.run_bind, StateT.run_get, Option.pure_def, Option.bind_eq_bind,
    Option.bind_some]
  cases found : Scope.split? name state.scope.frames with
  | none => rfl
  | some parts =>
      obtain ⟨inner, value, outer⟩ := parts
      have isFinal : Scope.IsFinal name value := final value (by rw [found]; rfl)
      have stays : (value.asVar? = some name || value.isConstant || value.isError) = true := by
        rcases isFinal with unknown | constant
        · simp [unknown]
        · simp [constant]
      dsimp only
      rw [if_pos stays]
      rfl

theorem resolve_ignores {leaf : Expr} : Ignores ∅ ∅ (resolve evaluate leaf name) := by
  intro start other same
  obtain ⟨shows, final⟩ := same.scope name (Set.notMem_empty name)
  rw [run_resolve final, run_resolve (shows ▸ final)]
  exact .some ⟨by rw [shows], same, rfl, rfl⟩

/-- Random numbers are not drawn, so their source is not looked at. -/
theorem applyFunctionWith_ignores (gate : randomAllowed controller = false)
    {function : UnaryFunction} {value : Expr} :
    Ignores hidden hidden (applyFunctionWith controller (.unary function) [value]) := by
  unfold applyFunctionWith
  split
  · rw [gate]
    exact .ofTraced
  · exact .ofTraced

/-! ## Derivatives and solutions -/

theorem evaluateDerivative_ignores (ignores : IgnoresHidden loops evaluate) {second : Expr}
    {mark : Mark} (confined : Confined loops ∅ bound here (.call₂ .diff tree second mark)) :
    Ignores ∅ ∅ (evaluateDerivative evaluate tree second) := by
  cases second with
  | var name inner =>
      refine .ofTraced_bind (differentiate_ensures_confined confined) ?_
      rintro derivative ⟨⟨_, kept⟩, -⟩
      split
      · exact .pure
      · exact ignores kept
  | _ => exact .ofMarking

/-- The unknown of an equation is bound to itself, whatever was hidden before. -/
theorem evaluateSolution_ignores (ignores : IgnoresHidden loops evaluate) {equation unknown : Expr}
    (confined : Confined loops ∅ bound here equation)
    (within : ∀ name ∈ hidden, unknown.asVar? = some name) :
    Ignores hidden hidden (evaluateSolution evaluate equation unknown) := by
  unfold evaluateSolution
  split
  · rename_i name mark
    have unknownOnly : hidden ⊆ {name} := fun other isHidden =>
      (Option.some.inj (within other isHidden)).symm
    exact .bind (.inFrame ∅ (.bind (.bindName (.inl rfl) unknownOnly) fun _ => ignores confined))
      fun _ => .ofTraced
  · exact .ofMarking

/-! ## Conditionals and loops -/

theorem evaluateConditional_ignores (ignores : IgnoresHidden loops evaluate)
    {test consequence alternative : Expr} (testConfined : Confined loops ∅ bound here test)
    (first : Confined loops ∅ bound here consequence)
    (second : Confined loops ∅ bound here alternative) :
    Ignores ∅ ∅ (evaluateConditional evaluate test consequence alternative) := by
  refine .bind (ignores testConfined) fun decision => ?_
  split
  · exact ignores first
  · exact ignores second
  · split
    · exact .pure
    · split
      · exact .ofMarking
      · exact .bind (ignores first) fun _ => .bind (ignores second) fun _ => .ofMarking

theorem runLoop_ignores (ignores : IgnoresHidden loops evaluate) {test body last : Expr}
    {step : Option Expr} (testConfined : Confined loops ∅ bound here test)
    (bodyConfined : Confined loops ∅ bound here body)
    (stepConfined : ∀ advance, step = some advance → Confined loops ∅ bound here advance)
    (rounds : Nat) :
    Ignores ∅ ∅ (runLoop controller evaluate test body step rounds last) := by
  induction rounds generalizing last with
  | zero => exact .unfinished
  | succ rounds ih =>
      unfold runLoop
      refine .bind .isStopped fun stopped => ?_
      split
      · exact .bind .ofTraced fun _ => .ofMarking
      refine .bind (ignores testConfined) fun decision => ?_
      split
      · exact .pure
      · split
        · exact .pure
        · exact .ofMarking
      refine .bind (ignores bodyConfined) fun value => ?_
      split
      · exact .pure
      split
      · exact ih
      · refine .bind (ignores (stepConfined _ rfl)) fun advanced => ?_
        split
        · exact .pure
        · exact ih

theorem startLoop_ignores (ignores : IgnoresHidden loops evaluate) {test body : Expr}
    {step : Option Expr} (testConfined : Confined loops ∅ bound here test)
    (bodyConfined : Confined loops ∅ bound here body)
    (stepConfined : ∀ advance, step = some advance → Confined loops ∅ bound here advance) :
    Ignores ∅ ∅ (startLoop controller evaluate test body step fuel) :=
  .bind .ofMarking fun _ => runLoop_ignores ignores testConfined bodyConfined stepConfined fuel

theorem evaluateFor_ignores (ignores : IgnoresHidden loops evaluate) {start test step body : Expr}
    (parts : ∀ part ∈ [start, test, step, body], Confined loops ∅ bound here part) :
    Ignores ∅ ∅ (evaluateFor controller fuel evaluate start test step body) := by
  refine .inFrame ∅ (.bind (ignores (parts start (by simp))) fun started => ?_)
  split
  · exact .pure
  · refine startLoop_ignores ignores (parts test (by simp)) (parts body (by simp)) ?_
    rintro advance ⟨⟩
    exact parts step (by simp)

/-- Every term of a sum is taken with the index bound anew. -/
theorem sumTerms_ignores (ignores : IgnoresHidden loops evaluate) {body total : Expr}
    (confined : Confined loops ∅ bound here body) (within : hidden ⊆ {name}) (count : Nat)
    (index : Int) :
    Ignores hidden hidden (sumTerms controller evaluate name body count index total) := by
  induction count generalizing hidden index total with
  | zero => exact .pure
  | succ count ih =>
      unfold sumTerms
      refine .bind .isStopped fun stopped => ?_
      split
      · exact .bind .ofTraced fun _ => .ofMarking
      have indexed : (liftM (make (.int index)) : Traced Expr).Ensures (fun _ => True)
          (Scope.IsFinal name) := .make fun _ => .inr rfl
      refine .ofTraced_bind indexed fun value final => .bind (.bindName final within) fun _ => ?_
      refine .mono ?_ (Set.empty_subset hidden)
      refine .bind (ignores confined) fun term => .bind .ofTraced fun next => ?_
      split
      · exact .pure
      · exact ih (Set.empty_subset _) (index + 1)

theorem evaluateSum_ignores (ignores : IgnoresHidden loops evaluate)
    {body index first last : Expr} (bodyConfined : Confined loops ∅ bound here body)
    (within : ∀ name ∈ hidden, index.asVar? = some name)
    (firstIgnores : Ignores hidden hidden (evaluate first))
    (lastIgnores : Ignores hidden hidden (evaluate last)) :
    Ignores hidden hidden (evaluateSum controller evaluate body index first last) := by
  unfold evaluateSum
  split
  · exact .ofMarking
  rename_i name isVar
  have indexOnly : hidden ⊆ {name} := fun other isHidden =>
    Option.some.inj ((within other isHidden).symm.trans isVar)
  refine .bind firstIgnores fun lower => .bind lastIgnores fun upper => ?_
  split
  · exact .pure
  · exact .inFrame hidden (sumTerms_ignores ignores bodyConfined indexOnly _ _)
  · exact .ofMarking

/-! ## Evaluation -/

theorem guardLoop_ignores {construct : Construct} {node : Expr} {loop : Evaluation Expr}
    (allowed : loopsAllowed controller = true → Ignores hidden hidden loop) :
    Ignores hidden hidden (guardLoop controller construct node loop) := by
  unfold guardLoop
  split
  · exact allowed ‹_›
  · exact .bind .ofTraced fun _ => .pure

/-- One level of evaluation, for a scope that hides nothing. -/
theorem evaluateNode_ignores (gate : randomAllowed controller = false)
    (ignores : IgnoresHidden (loopsAllowed controller) evaluate)
    (confined : Confined (loopsAllowed controller) ∅ bound here tree) :
    Ignores ∅ ∅ (evaluateNode controller fuel evaluate tree) := by
  cases confined with
  | leaf isLeaf =>
      cases tree with
      | var name mark => exact resolve_ignores
      | number | bool | char | text | error => exact .pure
      | _ => cases isLeaf
  | plain isPlain parts =>
      have evaluated {part : Expr} (member : part ∈ tree.children) :
          Ignores ∅ ∅ (evaluate part) := ignores (parts part member)
      cases tree with
      | array items mark =>
          exact .bind (.forEach fun item member => evaluated member) fun _ => .ofMarking
      | unary op operand mark =>
          cases op with
          | neg => exact .bind (evaluated (by simp [children])) fun _ => .ofTraced
          | not => exact .bind (evaluated (by simp [children])) fun _ => .ofMarking
      | arith op left right mark =>
          exact .bind (evaluated (by simp [children])) fun _ =>
            .bind (evaluated (by simp [children])) fun _ => .ofTraced
      | relation comparison left right mark =>
          exact .bind (evaluated (by simp [children])) fun _ =>
            .bind (evaluated (by simp [children])) fun _ => .ofMarking
      | connective link left right mark =>
          refine .bind (evaluated (by simp [children])) fun value => ?_
          split
          · exact .pure
          · exact .bind (evaluated (by simp [children])) fun _ => .ofMarking
      | call function argument mark =>
          exact .bind (evaluated (by simp [children])) fun _ => applyFunctionWith_ignores gate
      | call₂ function first second mark =>
          cases function with
          | max | min =>
              exact .bind (evaluated (by simp [children])) fun _ =>
                .bind (evaluated (by simp [children])) fun _ => .ofTraced
          | diff | solve => cases isPlain
      | conditional test consequence alternative mark =>
          exact evaluateConditional_ignores ignores (parts test (by simp [children]))
            (parts consequence (by simp [children])) (parts alternative (by simp [children]))
      | pause seconds mark =>
          exact .bind (evaluated (by simp [children])) fun _ => .bind .isStopped fun _ => .ofTraced
      | _ => cases isPlain
  | assignment isName => cases isName
  | misassignment notVar =>
      rename_i target value mark
      cases target with
      | var => cases notVar
      | _ => exact .ofMarking
  | whileLoop testConfined bodyConfined =>
      refine guardLoop_ignores fun allowed => ?_
      refine startLoop_ignores ignores (testConfined allowed) (bodyConfined allowed) ?_
      rintro advance ⟨⟩
  | forLoop parts =>
      exact guardLoop_ignores fun allowed => evaluateFor_ignores ignores (parts allowed)
  | summation bodyConfined limits =>
      refine guardLoop_ignores fun allowed => ?_
      exact evaluateSum_ignores ignores (bodyConfined allowed) (by simp)
        (ignores (limits allowed _ (by simp))) (ignores (limits allowed _ (by simp)))
  | solution equationConfined => exact evaluateSolution_ignores ignores equationConfined (by simp)
  | @derivative _ _ second mark treeConfined smaller =>
      have kept : Confined (loopsAllowed controller) ∅ bound here (.call₂ .diff _ second mark) :=
        .derivative treeConfined smaller
      exact evaluateDerivative_ignores ignores kept
  | @unresolved _ _ second mark resists =>
      have kept : Confined (loopsAllowed controller) ∅ bound here (.call₂ .diff _ second mark) :=
        .unresolved resists
      exact evaluateDerivative_ignores ignores kept

theorem evaluateTo_ignoresHidden (gate : randomAllowed controller = false) (fuel : Nat) :
    IgnoresHidden (loopsAllowed controller) (evaluateTo controller fuel) := by
  induction fuel with
  | zero => exact fun _ => .unfinished
  | succ fuel ih => exact fun confined => evaluateNode_ignores gate ih confined

theorem evaluateTo_number_ignores {value : Number} {mark : Mark} :
    Ignores hidden hidden (evaluateTo controller fuel (.number value mark)) := by
  cases fuel with
  | zero => exact .unfinished
  | succ fuel => exact .pure

/-- Runs that ignore the same names have the same result and take the same steps. -/
theorem evaluate?_eq_of_ignores {controller : Option Controller} {scope other : Scope}
    (same : Scope.SameView hidden scope other)
    (ignores : Ignores hidden hidden (evaluateTo controller fuel tree))
    (random otherRandom : RandomSource) (marks : Nat) :
    (evaluate? fuel controller scope random marks tree).map
        (fun run => (run.1, run.2.trace)) =
      (evaluate? fuel controller other otherRandom marks tree).map
        (fun run => (run.1, run.2.trace)) := by
  have outcomes := ignores (.start scope random marks) (.start other otherRandom marks)
    ⟨same, rfl, rfl, rfl⟩
  refine Evaluation.map_eq_of_rel outcomes fun run other outcome => ?_
  rw [outcome.result, EvalState.trace, EvalState.trace, outcome.state.steps]

/-- In two stacks of frames that bind the same names to constants and differ only in
the constants of one name, without permission to draw random numbers, an equation that
assigns nothing is solved for this name with the same result, and a formula that assigns
nothing is summed over this name between integer bounds with the same result; neither
run finishes with a given fuel when the other does not. -/
theorem bound_names_shield_outer_bindings (controller : Option Controller)
    (gate : randomAllowed controller = false) (name : String) (scope other : Scope)
    (constant : scope.AllBound (·.isConstant = true))
    (differ : List.Forall₂ (Frame.Rebinds {name}) scope.frames other.frames)
    (equation body : Expr) (assignFree : equation.assignedNames = [])
    (bodyAssignFree : body.assignedNames = []) (low high : Int) (fuel : Nat)
    (random otherRandom : RandomSource) (marks : Nat) (inner first last outer : Mark) :
    let outcome (scope : Scope) (random : RandomSource) (tree : Expr) :=
      (evaluate? fuel controller scope random marks tree).map fun run => (run.1, run.2.trace)
    let solution := .call₂ .solve equation (.var name inner) outer
    let sum := .summation body (.var name inner) (.number (.int low) first)
      (.number (.int high) last) outer
    outcome scope random solution = outcome other otherRandom solution ∧
      outcome scope random sum = outcome other otherRandom sum := by
  have same : Scope.SameView {name} scope other := .of_rebinds constant differ
  have confined {tree : Expr} (assignFree : tree.assignedNames = []) :
      Confined (loopsAllowed controller) ∅ tree.size Set.univ tree :=
    .of_assigned le_rfl (by simp [assignFree]) fun _ _ => trivial
  have indexOnly : ∀ other ∈ ({name} : Set String), (Expr.var name inner).asVar? = some other := by
    rintro _ rfl
    rfl
  refine ⟨evaluate?_eq_of_ignores same ?_ _ _ _, evaluate?_eq_of_ignores same ?_ _ _ _⟩
  · cases fuel with
    | zero => exact .unfinished
    | succ fuel =>
        exact evaluateSolution_ignores (evaluateTo_ignoresHidden gate fuel) (confined assignFree)
          indexOnly
  · cases fuel with
    | zero => exact .unfinished
    | succ fuel =>
        refine guardLoop_ignores fun _ => ?_
        exact evaluateSum_ignores (evaluateTo_ignoresHidden gate fuel) (confined bodyAssignFree)
          indexOnly evaluateTo_number_ignores evaluateTo_number_ignores

/-- Solving `x * y = 6` and adding up `x * y` give the same where `x` is five and where it
is seven, with `y` taken to be two. -/
theorem solution_and_sum_ignore_outer_binding :
    let controller := some (Controller.new.withLoops true)
    let scope : Scope := ⟨[], [[("x", .int 5), ("y", .int 2)]]⟩
    let other : Scope := ⟨[], [[("x", .int 7), ("y", .int 2)]]⟩
    let product : Expr := .arith .mul (.var "x") (.var "y")
    let equation : Expr := .relation .equal product (.int 6)
    let outcome (scope : Scope) (tree : Expr) :=
      (evaluate? 20 controller scope (.ofSeed 0) 0 tree).map fun run => (run.1, run.2.trace)
    let solution : Expr := .call₂ .solve equation (.var "x")
    let sum : Expr := .summation product (.var "x") (.int 1) (.int 3)
    randomAllowed controller = false ∧ scope.AllBound (·.isConstant = true) ∧
      List.Forall₂ (Frame.Rebinds {"x"}) scope.frames other.frames ∧
      equation.assignedNames = [] ∧ product.assignedNames = [] ∧
      ((outcome scope solution).isSome ∧ (outcome scope sum).isSome) ∧
      outcome scope solution = outcome other solution ∧
        outcome scope sum = outcome other sum := by
  intro controller scope other product equation outcome solution sum
  have gate : randomAllowed controller = false := rfl
  have constant : scope.AllBound (·.isConstant = true) := by decide
  have differ : List.Forall₂ (Frame.Rebinds {"x"}) scope.frames other.frames := by
    refine .cons .nil (.cons (.cons ⟨rfl, fun shown => ?_⟩ (.cons ⟨rfl, fun _ => rfl⟩ .nil)) .nil)
    exact absurd rfl shown
  have finished : (outcome scope solution).isSome ∧ (outcome scope sum).isSome := by
    decide +kernel
  exact ⟨gate, constant, differ, rfl, rfl, finished,
    bound_names_shield_outer_bindings controller gate "x" scope other constant differ equation
      product rfl rfl 1 3 20 (.ofSeed 0) (.ofSeed 0) 0 _ _ _ _⟩

end Expr

end SymbolicAlgebra
