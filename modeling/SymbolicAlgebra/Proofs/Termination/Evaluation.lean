import Mathlib.Order.Filter.AtTopBot.Basic
import SymbolicAlgebra.Proofs.FrameEffects
import SymbolicAlgebra.Proofs.ScopeStack
import SymbolicAlgebra.Proofs.Termination.Differentiation

/-!
# Evaluation without loops ends

Where loops are refused, an evaluation recurses into the children of the tree, into
derivatives and into the values of variables, none of which need to be smaller than
the tree.  The derivative in the place of a derivative node only holds derivative
nodes of trees that are smaller than the one it was taken of, or that resist and are
not evaluated again.  The value of a variable is evaluated in the frames outside its
own, of which there are fewer.

Solutions open frames, though, and equations may assign to names in them, so that the
number of frames may grow on the way.  What has been assigned is dormant: it assigns
nothing itself, and the frames that its own evaluation opens bind only the unknown, to
itself.  So the frames that are there at the start, with values of any kind, are the
first measure, the frames that hold dormant values the second, and the frames of
unknowns do not count.
-/

namespace SymbolicAlgebra

namespace Expr

/-- A tree equals itself: undefined numbers in it are told by their marks. -/
theorem agree_self (tree : Expr) : agree tree tree = true := by
  induction tree using induction_children with
  | leaf tree isLeaf =>
      cases tree with
      | number value mark =>
          cases undefined : value.isNaN with
          | false => simp [agree, Number.beq_self undefined]
          | true => simp [agree, undefined]
      | bool | char | text | var | error => simp [agree]
      | _ => cases isLeaf
  | node tree inner ih =>
      exact (agree_node_iff inner).mpr ⟨rfl, agreeAll_iff_forall₂.mpr (List.forall₂_same.mpr ih)⟩

end Expr

/-! ## Evaluations with enough fuel -/

namespace Evaluation

variable {First Second : Type}

/-- Started in a scope of the first kind, the evaluation ends, with the same outcome
for all fuel from some amount on; it leaves a scope of the second kind, and its result
meets the condition. -/
def Concludes (before : Scope → Prop) (compute : Nat → Evaluation First) (after : Scope → Prop)
    (condition : First → Prop) : Prop :=
  ∀ state, before state.scope → ∃ result next,
    (∀ᶠ fuel in Filter.atTop, (compute fuel).run state = some (result, next)) ∧
      after next.scope ∧ condition result

namespace Concludes

variable {before between after : Scope → Prop} {condition : First → Prop} {later : Second → Prop}

theorem pure {value : First} (holds : condition value) :
    Concludes before (fun _ => Pure.pure value) before condition :=
  fun state inScope => ⟨value, state, .of_forall fun _ => rfl, inScope, holds⟩

theorem bind {first : Nat → Evaluation First} {next : Nat → First → Evaluation Second}
    (concludes : Concludes before first between condition)
    (continues : ∀ value, condition value → Concludes between (next · value) after later) :
    Concludes before (fun fuel => first fuel >>= next fuel) after later := by
  intro state inScope
  obtain ⟨value, middle, firstRuns, inMiddle, holds⟩ := concludes state inScope
  obtain ⟨result, last, nextRuns, inLast, holdsLater⟩ := continues value holds middle inMiddle
  refine ⟨result, last, ?_, inLast, holdsLater⟩
  filter_upwards [firstRuns, nextRuns] with fuel firstRun nextRun
  rw [StateT.run_bind, firstRun]
  exact nextRun

theorem ofTraced {computation : Traced First}
    (ensures : computation.Ensures (fun _ => True) condition) :
    Concludes before (fun _ => Evaluation.ofTraced computation) before condition :=
  fun _ inScope => ⟨_, _, .of_forall fun _ => rfl, inScope, ensures _ fun _ _ => trivial⟩

theorem ofMarking {compute : Marking First} (ensures : compute.Ensures condition) :
    Concludes before (fun _ => liftM compute) before condition :=
  ofTraced (.ofMarking ensures)

theorem make {node : Expr} {condition : Expr → Prop}
    (holds : ∀ mark, condition (node.withMark mark)) :
    Concludes before (fun _ => liftM (Expr.make node)) before condition :=
  ofMarking (.make holds)

theorem draw {count : Nat} :
    Concludes before (fun _ => Evaluation.draw count) before fun _ => True :=
  fun _ inScope => ⟨_, _, .of_forall fun _ => rfl, inScope, trivial⟩

theorem isStopped {controller : Option Controller} :
    Concludes before (fun _ => Evaluation.isStopped controller) before fun _ => True :=
  fun _ inScope => ⟨_, _, .of_forall fun _ => rfl, inScope, trivial⟩

theorem changeScope {change : Scope → Scope}
    (changes : ∀ {scope : Scope}, before scope → after (change scope)) :
    Concludes before (fun _ => Evaluation.changeScope change) after fun _ => True :=
  fun _ inScope => ⟨_, _, .of_forall fun _ => rfl, changes inScope, trivial⟩

theorem forEach {compute : Nat → Expr → Evaluation Expr} {condition : Expr → Prop}
    {list : List Expr}
    (concludes : ∀ item ∈ list, Concludes before (compute · item) before condition) :
    Concludes before (fun fuel => Evaluation.forEach (compute fuel) list) before
      (∀ result ∈ ·, condition result) := by
  induction list with
  | nil => exact pure (List.forall_mem_nil _)
  | cons item list ih =>
      rw [List.forall_mem_cons] at concludes
      exact bind concludes.1 fun _ holds => bind (ih concludes.2) fun _ rest =>
        pure (List.forall_mem_cons.mpr ⟨holds, rest⟩)

theorem inFrame {compute : Nat → Evaluation First}
    (opens : ∀ {scope : Scope}, before scope → between scope.push)
    (concludes : Concludes between compute between condition)
    (closes : ∀ {start scope : Scope}, before start → between scope →
      before (scope.pop?.getD scope)) :
    Concludes before (fun fuel => Evaluation.inFrame (compute fuel)) before condition := by
  intro state inScope
  have run : Concludes before (fun fuel => Evaluation.inFrame (compute fuel)) before condition :=
    .bind (.changeScope opens) fun _ _ => .bind concludes fun _ holds =>
      .bind (.changeScope fun inside => closes inScope inside) fun _ _ => .pure holds
  exact run state inScope

end Concludes

end Evaluation

/-! ## Layers of frames -/

namespace Scope

variable {unknowns results given : Nat} {scope after : Scope} {name : String} {value : Expr}
  {before outer : List Frame} {frame : Frame}

/-- The innermost frames bind names to themselves only, as solutions do, the ones
around these hold dormant values, and any values stand in the given ones outside. -/
structure Layered (unknowns results given : Nat) (scope : Scope) : Prop where
  count : scope.frames.length = unknowns + results + given
  unknown : ∀ level frame, level < unknowns → scope.frames[level]? = some frame →
    ∀ binding ∈ frame, binding.2.asVar? = some binding.1
  dormant : ∀ level frame, level < unknowns + results → scope.frames[level]? = some frame →
    ∀ binding ∈ frame, binding.2.Dormant false

namespace Layered

/-- Frames of any kind may be counted as given. -/
theorem all_given (scope : Scope) : Layered 0 0 scope.frames.length scope where
  count := by omega
  unknown level frame inside := by omega
  dormant level frame inside := by omega

/-- Frames of unknowns are a special case of frames that hold dormant values. -/
theorem empty_results : Layered 0 1 0 .empty where
  count := rfl
  unknown level frame inside := by omega
  dormant level frame inside found := by
    obtain rfl : level = 0 := by omega
    cases found
    exact List.forall_mem_nil _

theorem empty_unknowns : Layered 1 0 0 .empty where
  count := rfl
  unknown level frame inside found := by
    obtain rfl : level = 0 := by omega
    cases found
    exact List.forall_mem_nil _
  dormant := empty_results.dormant

theorem push (layered : Layered unknowns results given scope) :
    Layered (unknowns + 1) results given scope.push where
  count := by
    have count := layered.count
    simp only [Scope.push, frames, List.length_cons] at count ⊢
    omega
  unknown level frame inside found := by
    cases level with
    | zero =>
        cases found
        exact List.forall_mem_nil _
    | succ level => exact layered.unknown level frame (by omega) found
  dormant level frame inside found := by
    cases level with
    | zero =>
        cases found
        exact List.forall_mem_nil _
    | succ level => exact layered.dormant level frame (by omega) found

/-- The frames that closing one leaves, unless it is the root. -/
theorem frames_of_pop (nested : 1 < scope.frames.length) :
    scope.frames = scope.current :: (scope.pop?.getD scope).frames := by
  obtain ⟨current, enclosing⟩ := scope
  cases enclosing with
  | nil => simp [frames] at nested
  | cons parent rest => rfl

theorem pop (layered : Layered (unknowns + 1) results given scope)
    (inhabited : 0 < unknowns + results + given) :
    Layered unknowns results given (scope.pop?.getD scope) := by
  have count := layered.count
  have split := frames_of_pop (by omega : 1 < scope.frames.length)
  refine ⟨?_, fun level frame inside found => ?_, fun level frame inside found => ?_⟩
  · rw [split, List.length_cons] at count
    omega
  · exact layered.unknown (level + 1) frame (by omega) (split ▸ found)
  · exact layered.dormant (level + 1) frame (by omega) (split ▸ found)

theorem popResult (layered : Layered 0 (results + 1) given scope)
    (inhabited : 0 < 0 + results + given) : Layered 0 results given (scope.pop?.getD scope) := by
  have count := layered.count
  have split := frames_of_pop (by omega : 1 < scope.frames.length)
  refine ⟨?_, fun level frame inside found => by omega, fun level frame inside found => ?_⟩
  · rw [split, List.length_cons] at count
    omega
  · exact layered.dormant (level + 1) frame (by omega) (split ▸ found)

/-- A frame of unknowns may hold any dormant values. -/
theorem weaken (layered : Layered 1 results given scope) : Layered 0 (results + 1) given scope where
  count := by
    have count := layered.count
    omega
  unknown level frame inside := by omega
  dormant level frame inside := layered.dormant level frame (by omega)

/-- A dormant value may be written anywhere, but to the frames of unknowns only in place
of a name. -/
theorem write {level : Nat} (layered : Layered unknowns results given scope)
    (frames : after.frames = scope.frames.modify level (Frame.bind name value))
    (dormant : value.Dormant false) (itself : unknowns = 0 ∨ value.asVar? = some name) :
    Layered unknowns results given after := by
  have origin {place : Nat} {frame : Frame} (found : after.frames[place]? = some frame) :
      ∃ old, scope.frames[place]? = some old ∧
        ∀ binding ∈ frame, binding ∈ old ∨ binding = (name, value) := by
    rw [frames, List.getElem?_modify] at found
    obtain ⟨old, there, changed⟩ := Option.map_eq_some_iff.mp found
    refine ⟨old, there, ?_⟩
    split at changed
    · subst changed
      exact fun binding => Frame.mem_bind
    · subst changed
      exact fun binding => .inl
  refine ⟨?_, fun place frame inside found => ?_, fun place frame inside found => ?_⟩
  · rw [frames, List.length_modify, layered.count]
  · obtain ⟨old, there, members⟩ := origin found
    intro binding member
    rcases members binding member with inOld | rfl
    · exact layered.unknown place old inside there binding inOld
    · exact itself.resolve_left (by omega)
  · obtain ⟨old, there, members⟩ := origin found
    intro binding member
    rcases members binding member with inOld | rfl
    · exact layered.dormant place old inside there binding inOld
    · exact dormant

theorem bindUnknown {mark : Mark} (layered : Layered unknowns results given scope) :
    Layered unknowns results given (scope.bind name (.var name mark)) := by
  have frames : (scope.bind name (.var name mark)).frames =
      scope.frames.modify 0 (Frame.bind name (.var name mark)) := rfl
  exact layered.write frames (.leaf rfl) (.inr rfl)

theorem assign (layered : Layered 0 results given scope) (dormant : value.Dormant false) :
    Layered 0 results given (scope.assign name value) :=
  layered.write (frames_assign scope name value) dormant (.inl rfl)

section Split

variable (layered : Layered unknowns results given scope)
  (frames : scope.frames = before ++ frame :: outer)
include layered frames

theorem length_before : before.length + 1 + outer.length = unknowns + results + given := by
  rw [← layered.count, frames, List.length_append, List.length_cons]
  omega

omit layered in
theorem getElem?_before : scope.frames[before.length]? = some frame := by
  rw [frames, List.getElem?_append_right (le_refl _), Nat.sub_self]
  rfl

/-- The frames outside the one of a binding. -/
theorem outside (inhabited : outer ≠ []) :
    Layered 0 (unknowns + results - (before.length + 1))
      (given - (before.length + 1 - (unknowns + results))) (ofFrames outer) := by
  have count := layered.length_before frames
  refine ⟨?_, fun level frame inside => by omega, fun level found inside place => ?_⟩
  · rw [frames_ofFrames inhabited]
    omega
  · rw [frames_ofFrames inhabited] at place
    refine layered.dormant (before.length + 1 + level) found (by omega) ?_
    rw [frames, ← place, List.getElem?_append_right (by omega)]
    have shift : before.length + 1 + level - before.length = level + 1 := by omega
    rw [shift, List.getElem?_cons_succ]

/-- The frames inside are put before what has become of those outside. -/
theorem rejoin {fewer : Nat} (above : unknowns ≤ before.length)
    (changed : Layered 0 (unknowns + results - (before.length + 1)) fewer after)
    (same : after.frames.length = outer.length) :
    Layered unknowns results given (ofFrames (before ++ [frame] ++ after.frames)) := by
  have count := layered.length_before frames
  have nonempty : before ++ [frame] ++ after.frames ≠ [] := by simp
  have inner {level : Nat} (inside : level < before.length + 1) :
      (before ++ [frame] ++ after.frames)[level]? = scope.frames[level]? := by
    have length : (before ++ [frame]).length = before.length + 1 := by simp
    have split : scope.frames = before ++ [frame] ++ outer := by simp [frames]
    rw [split]
    exact (List.getElem?_append_left (by omega)).trans
      (List.getElem?_append_left (by omega)).symm
  refine ⟨?_, fun level other inside found => ?_, fun level other inside found => ?_⟩
  · rw [frames_ofFrames nonempty]
    simp only [List.length_append, List.length_singleton]
    omega
  · rw [frames_ofFrames nonempty, inner (by omega)] at found
    exact layered.unknown level other inside found
  · rw [frames_ofFrames nonempty] at found
    by_cases place : level < before.length + 1
    · rw [inner place] at found
      exact layered.dormant level other inside found
    · rw [List.getElem?_append_right (by simp; omega)] at found
      refine changed.dormant _ other ?_ found
      simp
      omega

end Split

end Layered

end Scope

namespace Expr

open Evaluation (Concludes)
open Scope (Layered)

variable {controller : Option Controller} {unknowns results given : Nat} {tree value : Expr}
  {name : String}

/-! ## Variables -/

/-- The value of a binding is taken as it stands. -/
theorem isLeaf_of_final (final : (value.asVar? = some name || value.isConstant ||
    value.isError) = true) : value.isLeaf = true := by
  cases value <;> first | rfl | cases final

section Bound

variable {evaluate : Nat → Expr → Evaluation Expr}
  (within : ∀ {depth fewer : Nat} {value : Expr}, fewer < results → value.Dormant false →
    Concludes (Layered depth fewer given) (evaluate · value) (Layered depth fewer given)
      (Dormant false))
  (beyond : ∀ {results fewer : Nat} (value : Expr), fewer < given →
    Concludes (Layered 0 results fewer) (evaluate · value) (Layered 0 results fewer)
      (Dormant false))
include within beyond

/-- A value is evaluated in the frames outside its own: one that is dormant in fewer
frames of dormant values, any other in fewer frames of the given ones. -/
theorem concludes_outside {scope : Scope} {before outer : List Frame} {frame : Frame}
    (layered : Layered unknowns results given scope)
    (frames : scope.frames = before ++ frame :: outer) (above : unknowns ≤ before.length)
    (member : (name, value) ∈ frame) :
    ∃ inside : Scope → Prop, inside (Scope.ofFrames outer) ∧
      Concludes inside (evaluate · value) inside (Dormant false) ∧
      ∀ after, inside after → outer ≠ [] →
        Layered unknowns results given (Scope.ofFrames (before ++ [frame] ++ after.frames)) := by
  have count := layered.length_before frames
  have dormant (place : before.length < unknowns + results) : value.Dormant false :=
    layered.dormant _ frame place (Layered.getElem?_before frames) _ member
  by_cases inhabited : outer = []
  · -- Outside the root there is an empty frame, which is of whatever kind is left.
    subst inhabited
    rw [List.length_nil, Nat.add_zero] at count
    by_cases place : before.length < unknowns + results
    · obtain rfl : given = 0 := by omega
      exact ⟨_, .empty_unknowns, within (by omega) (dormant place),
        fun _ _ empty => absurd rfl empty⟩
    · exact ⟨_, .empty_results, beyond value (by omega), fun _ _ empty => absurd rfl empty⟩
  · have concludes : Concludes
        (Layered 0 (unknowns + results - (before.length + 1))
          (given - (before.length + 1 - (unknowns + results)))) (evaluate · value)
        (Layered 0 (unknowns + results - (before.length + 1))
          (given - (before.length + 1 - (unknowns + results)))) (Dormant false) := by
      by_cases place : before.length < unknowns + results
      · have all : given - (before.length + 1 - (unknowns + results)) = given := by omega
        rw [all]
        exact within (by omega) (dormant place)
      · exact beyond value (by omega)
    refine ⟨_, layered.outside frames inhabited, concludes, fun after changed _ => ?_⟩
    have same := changed.count
    exact layered.rejoin frames above changed (by omega)

theorem resolve_concludes {mark : Mark} :
    Concludes (Layered unknowns results given)
      (fun fuel => resolve (evaluate fuel) (.var name mark) name)
      (Layered unknowns results given) (Dormant false) := by
  intro state layered
  unfold resolve
  simp only [StateT.run_bind, StateT.run_get, Option.pure_def, Option.bind_eq_bind,
    Option.bind_some]
  split
  · exact ⟨.var name mark, state, .of_forall fun _ => rfl, layered, .leaf rfl⟩
  · rename_i inner value outer found
    obtain ⟨before, frame, rfl, frames, -, shows⟩ := Scope.split?_eq_some_iff.mp found
    have member : (name, value) ∈ frame := Frame.mem_of_lookup? shows
    split
    · rename_i final
      exact ⟨value, state, .of_forall fun _ => rfl, layered, .leaf (isLeaf_of_final final)⟩
    · rename_i unsettled
      have above : unknowns ≤ before.length := by
        by_contra below
        have itself := layered.unknown _ frame (by omega) (Layered.getElem?_before frames) _ member
        simp [itself] at unsettled
      obtain ⟨inside, startsInside, concludes, rejoins⟩ :=
        concludes_outside within beyond layered frames above member
      obtain ⟨result, next, runs, nextInside, dormant⟩ :=
        concludes { state with scope := Scope.ofFrames outer } startsInside
      let rejoined := if outer.isEmpty then state.scope
        else Scope.ofFrames (before ++ [frame] ++ next.scope.frames)
      refine ⟨result, { next with scope := rejoined }, ?_, ?_, dormant⟩
      · filter_upwards [runs] with fuel run
        change ((evaluate fuel value).run { state with scope := Scope.ofFrames outer }).bind _ = _
        rw [run]
        rfl
      · dsimp only [rejoined]
        split
        · exact layered
        · exact rejoins _ nextInside (by simpa using ‹¬outer.isEmpty = true›)

end Bound

/-! ## Nodes -/

/-- Kinds of scopes, by the number of frames that solutions have opened, that
evaluations keep which assign only to the given names. -/
structure Stage (controller : Option Controller) (names : Set String)
    (At : Nat → Scope → Prop) : Prop where
  push : ∀ {depth : Nat} {scope : Scope}, At depth scope → At (depth + 1) scope.push
  pop : ∀ {depth : Nat} {start scope : Scope}, At depth start → At (depth + 1) scope →
    At depth (scope.pop?.getD scope)
  bindUnknown : ∀ {depth : Nat} {scope : Scope} {name : String} {mark : Mark},
    At (depth + 1) scope → At (depth + 1) (scope.bind name (.var name mark))
  assign : ∀ {depth : Nat} {scope : Scope} {name : String} {value : Expr}, name ∈ names →
    value.Dormant false → At depth scope → At depth (scope.assign name value)
  resolve : ∀ (depth : Nat) (name : String) (mark : Mark),
    Concludes (At depth) (fun fuel => resolve (evaluateTo controller fuel) (.var name mark) name)
      (At depth) (Dormant false)

/-- An evaluation ends with the fuel that one of its levels needs, and one more. -/
theorem evaluateTo_concludes {before : Scope → Prop}
    (concludes : Concludes before
      (fun fuel => evaluateNode controller fuel (evaluateTo controller fuel) tree) before
      (Dormant false)) :
    Concludes before (evaluateTo controller · tree) before (Dormant false) := by
  intro state inScope
  obtain ⟨result, next, runs, after, holds⟩ := concludes state inScope
  obtain ⟨needed, enough⟩ := Filter.eventually_atTop.mp runs
  refine ⟨result, next, Filter.eventually_atTop.mpr ⟨needed + 1, fun fuel sufficient => ?_⟩, after,
    holds⟩
  obtain ⟨rest, rfl⟩ : ∃ rest, fuel = rest + 1 := ⟨fuel - 1, by omega⟩
  exact enough rest (by omega)

section Nodes

variable {At : Scope → Prop} {evaluate : Nat → Expr → Evaluation Expr}

theorem drawRandomList_concludes {length : Expr} (dormant : length.Dormant false) :
    Concludes At (fun _ => drawRandomList length) At (Dormant false) := by
  have composed := dormant_composed false
  unfold drawRandomList
  split
  · split
    · exact .bind .draw fun drawn _ =>
        .bind (.ofMarking (ofReals_dormant drawn (List.forall_mem_nil _))) fun _ hold =>
          .make fun _ => composed.array.mpr hold
    · exact .make fun _ => composed.error
  · split
    · exact .make fun _ => composed.error
    · exact .make fun _ => (composed.call rfl).mpr dormant

theorem applyFunctionWith_concludes {function : UnaryFunction} (dormant : value.Dormant false) :
    Concludes At (fun _ => applyFunctionWith controller (.unary function) [value]) At
      (Dormant false) := by
  have applied := (dormant_composed false).applyOne_keeps (Bool.or_true (function != .randList))
    dormant
  unfold applyFunctionWith
  split
  · rename_i length same arguments
    cases arguments
    split
    · exact drawRandomList_concludes dormant
    · exact .ofTraced applied
  · exact .ofTraced applied

theorem evaluateConditional_concludes {test consequence alternative : Expr}
    (testConcludes : Concludes At (evaluate · test) At (Dormant false))
    (first : Concludes At (evaluate · consequence) At (Dormant false))
    (second : Concludes At (evaluate · alternative) At (Dormant false)) :
    Concludes At (fun fuel => evaluateConditional (evaluate fuel) test consequence alternative) At
      (Dormant false) := by
  refine .bind testConcludes fun decision dormant => ?_
  split
  · exact first
  · exact second
  · split
    · exact .pure dormant
    · split
      · exact .make fun _ => (dormant_composed false).error
      · exact .bind first fun _ firstDormant => .bind second fun _ secondDormant =>
          .make fun _ => (dormant_composed false).conditional.mpr
            ⟨dormant, firstDormant, secondDormant⟩

theorem guardLoop_concludes (refused : loopsAllowed controller = false) {construct : Construct}
    {node : Expr} {loop : Nat → Evaluation Expr} (dormant : node.Dormant false) :
    Concludes At (fun fuel => guardLoop controller construct node (loop fuel)) At
      (Dormant false) := by
  unfold guardLoop
  rw [refused]
  exact .bind (.ofTraced .step) fun _ _ => .pure dormant

/-- Nodes whose value is computed from those of their children. -/
theorem evaluateNode_plain_concludes (isPlain : tree.isPlain = true)
    (parts : ∀ child ∈ tree.children, Concludes At (evaluate · child) At (Dormant false)) :
    Concludes At (fun fuel => evaluateNode controller fuel (evaluate fuel) tree) At
      (Dormant false) := by
  have composed := dormant_composed false
  cases tree with
  | array items mark =>
      exact .bind (.forEach parts) fun _ hold => .make fun _ => composed.array.mpr hold
  | unary op operand mark =>
      have evaluated := parts operand (by simp [children])
      cases op with
      | neg => exact .bind evaluated fun _ dormant => .ofTraced (composed.neg_keeps dormant)
      | not => exact .bind evaluated fun _ dormant => .ofMarking (composed.negation_keeps dormant)
  | arith op left right mark =>
      exact .bind (parts left (by simp [children])) fun _ first =>
        .bind (parts right (by simp [children])) fun _ second =>
          .ofTraced (composed.arithmetic_keeps first second)
  | relation comparison left right mark =>
      exact .bind (parts left (by simp [children])) fun _ first =>
        .bind (parts right (by simp [children])) fun _ second =>
          .ofMarking (composed.compareBy_keeps first second)
  | connective link left right mark =>
      refine .bind (parts left (by simp [children])) fun value first => ?_
      split
      · exact .pure first
      · exact .bind (parts right (by simp [children])) fun _ second =>
          .ofMarking (composed.connect_keeps first second)
  | call function argument mark =>
      exact .bind (parts argument (by simp [children])) fun _ dormant =>
        applyFunctionWith_concludes dormant
  | call₂ function first second mark =>
      cases function with
      | max | min =>
          exact .bind (parts first (by simp [children])) fun _ left =>
            .bind (parts second (by simp [children])) fun _ right =>
              .ofTraced (composed.applyTwo_keeps (fun _ => rfl) left right)
      | diff | solve => cases isPlain
  | conditional test consequence alternative mark =>
      exact evaluateConditional_concludes (parts test (by simp [children]))
        (parts consequence (by simp [children])) (parts alternative (by simp [children]))
  | pause seconds mark =>
      exact .bind (parts seconds (by simp [children])) fun _ dormant =>
        .bind .isStopped fun _ _ => .ofTraced (composed.pauseFor_keeps dormant)
  | _ => cases isPlain

end Nodes

/-! ## Trees -/

namespace Stage

variable {names here : Set String} {At : Nat → Scope → Prop} {depth bound : Nat}

theorem evaluateSolution_concludes (stage : Stage controller names At) {equation unknown : Expr}
    (concludes : Concludes (At (depth + 1)) (evaluateTo controller · equation) (At (depth + 1))
      (Dormant false)) :
    Concludes (At depth)
      (fun fuel => evaluateSolution (evaluateTo controller fuel) equation unknown) (At depth)
      (Dormant false) := by
  unfold evaluateSolution
  split
  · rename_i name mark
    have evaluated : Concludes (At depth)
        (fun fuel => Evaluation.inFrame do
          Evaluation.changeScope fun scope => scope.bind name (.var name mark)
          evaluateTo controller fuel equation) (At depth) (Dormant false) :=
      .inFrame stage.push (.bind (.changeScope stage.bindUnknown) fun _ _ => concludes) stage.pop
    refine .bind evaluated fun value dormant => .ofTraced ?_
    exact (dormant_composed false).solve_keeps (fun holds => .solution holds.confined) dormant
  · exact .make fun _ => (dormant_composed false).error

/-- A derivative is evaluated in the place of its node, unless it is unresolved. -/
theorem evaluateDerivative_concludes {second : Expr}
    (concludes : ∀ derivative, Confined false names tree.size here derivative →
      Concludes (At depth) (evaluateTo controller · derivative) (At depth) (Dormant false))
    (confined : Confined false names bound here tree) :
    Concludes (At depth)
      (fun fuel => evaluateDerivative (evaluateTo controller fuel) tree second) (At depth)
      (Dormant false) := by
  cases second with
  | var name inner =>
      refine .bind (.ofTraced (Confined.differentiate_confined confined.tighten))
        fun derivative kept => ?_
      split
      · exact .pure (kept.of_isUnresolvedDerivativeOf ‹_›)
      · exact concludes derivative kept
  | _ => exact .make fun _ => (dormant_composed false).error

/-- A tree that resists differentiation is left as its own derivative, which is not
evaluated again. -/
theorem evaluateDerivative_resists_concludes {second : Expr}
    (resists : ∀ name, second.asVar? = some name → tree.resists name = true) :
    Concludes (At depth)
      (fun fuel => evaluateDerivative (evaluateTo controller fuel) tree second) (At depth)
      (Dormant false) := by
  cases second with
  | var name inner =>
      refine .bind (.ofTraced (differentiate_resists (resists name rfl))) ?_
      rintro _ ⟨mark, outer, rfl⟩
      have unresolved : isUnresolvedDerivativeOf tree
          (.call₂ .diff tree (.var name mark) outer) = true := agree_self tree
      simp only [unresolved, if_true]
      exact .pure (.unresolved (by rintro _ ⟨⟩; exact resists name rfl))
  | _ => exact .make fun _ => (dormant_composed false).error

/-- The evaluation of a tree that assigns no other names ends, in every scope of the
kind. -/
theorem concludes (stage : Stage controller names At) (refused : loopsAllowed controller = false)
    (confined : Confined false names bound here tree) (depth : Nat) :
    Concludes (At depth) (evaluateTo controller · tree) (At depth) (Dormant false) := by
  -- Derivatives hold derivatives of trees below a smaller bound.
  induction bound using Nat.strong_induction_on generalizing here tree depth with
  | _ bound smallerIH =>
      apply evaluateTo_concludes
      induction confined generalizing depth with
      | @leaf here tree isLeaf =>
          cases tree with
          | var name mark => exact stage.resolve depth name mark
          | number | bool | char | text | error => exact .pure (.leaf isLeaf)
          | _ => cases isLeaf
      | plain isPlain _ ih =>
          exact evaluateNode_plain_concludes isPlain fun child member =>
            evaluateTo_concludes (ih child member depth)
      | assignment isName _ _ ih =>
          exact .bind (evaluateTo_concludes (ih depth)) fun result dormant =>
            .bind (.changeScope (stage.assign isName dormant)) fun _ _ => .pure dormant
      | @misassignment here target value mark notVar =>
          cases target with
          | var => cases notVar
          | _ => exact .make fun _ => (dormant_composed false).error
      | whileLoop => exact guardLoop_concludes refused (.whileLoop nofun nofun)
      | forLoop => exact guardLoop_concludes refused (.forLoop nofun)
      | summation => exact guardLoop_concludes refused (.summation nofun nofun)
      | solution _ ih =>
          exact stage.evaluateSolution_concludes (evaluateTo_concludes (ih (depth + 1)))
      | derivative treeConfined smaller =>
          exact evaluateDerivative_concludes
            (fun derivative kept => smallerIH _ smaller kept depth) treeConfined
      | unresolved resists => exact evaluateDerivative_resists_concludes resists

end Stage

/-! ## Scopes -/

/-- Dormant trees are evaluated within any number of frames that hold dormant values,
if all trees are with fewer given frames. -/
theorem dormant_concludes (refused : loopsAllowed controller = false)
    (beyond : ∀ {results fewer : Nat} (value : Expr), fewer < given →
      Concludes (Layered 0 results fewer) (evaluateTo controller · value) (Layered 0 results fewer)
        (Dormant false))
    (dormant : tree.Dormant false) :
    Concludes (Layered unknowns results given) (evaluateTo controller · tree)
      (Layered unknowns results given) (Dormant false) := by
  induction results using Nat.strong_induction_on generalizing unknowns tree with
  | _ results ih =>
      have stage : Stage controller ∅ fun unknowns => Layered unknowns results given :=
        { push := Layered.push
          pop := fun start inside => inside.pop (start.count ▸ Nat.succ_pos _)
          bindUnknown := Layered.bindUnknown
          assign := fun impossible => impossible.elim
          resolve := fun _ _ _ => resolve_concludes (fun fewer => ih _ fewer) beyond }
      exact stage.concludes refused dormant unknowns

/-- All trees are evaluated in all scopes. -/
theorem layered_concludes (refused : loopsAllowed controller = false) (tree : Expr)
    (results given : Nat) :
    Concludes (Layered 0 results given) (evaluateTo controller · tree) (Layered 0 results given)
      (Dormant false) := by
  induction given using Nat.strong_induction_on generalizing tree results with
  | _ given ih =>
      have beyond {results fewer : Nat} (value : Expr) (smaller : fewer < given) :
          Concludes (Layered 0 results fewer) (evaluateTo controller · value)
            (Layered 0 results fewer) (Dormant false) := ih fewer smaller value results
      have stage : Stage controller Set.univ fun results => Layered 0 results given :=
        { push := fun layered => layered.push.weaken
          pop := fun start inside => inside.popResult (start.count ▸ Nat.succ_pos _)
          bindUnknown := Layered.bindUnknown
          assign := fun _ dormant layered => layered.assign dormant
          resolve := fun _ _ _ => resolve_concludes
            (fun _ dormant => dormant_concludes refused beyond dormant) beyond }
      have confined : Confined false Set.univ tree.size Set.univ tree :=
        .of_assigned le_rfl (fun _ _ => trivial) fun _ _ => trivial
      exact stage.concludes refused confined results

/-- Where loops are refused, every evaluation ends: with enough fuel it has an outcome,
which no more fuel changes. -/
theorem evaluate?_concludes (refused : loopsAllowed controller = false) (scope : Scope)
    (random : RandomSource) (marks : Nat) (tree : Expr) :
    ∃ result state needed, ∀ fuel, needed ≤ fuel →
      evaluate? fuel controller scope random marks tree = some (result, state) := by
  obtain ⟨result, state, runs, -, -⟩ :=
    layered_concludes refused tree 0 _ (.start scope random marks) (.all_given scope)
  obtain ⟨needed, enough⟩ := Filter.eventually_atTop.mp runs
  exact ⟨result, state, needed, enough⟩

/-- Differentiation and evaluation without loops end.  The derivative of every tree is
found before the depth is used up: it is the same for any greater depth, whatever would
answer at its end.  And where loops are not permitted, the evaluation of every tree in
every scope comes to an outcome with enough fuel, which no more fuel changes. -/
theorem differentiation_and_evaluation_end :
    (∀ (tree : Expr) (name : String) (depth : Nat) (bottom : Expr → Traced Expr),
      depthFor tree.size ≤ depth →
        (differentiateNode · name)^[depth] bottom tree = tree.differentiate name) ∧
      ∀ (controller : Option Controller) (scope : Scope) (random : RandomSource) (marks : Nat)
        (tree : Expr), loopsAllowed controller = false →
          ∃ result state needed, ∀ fuel, needed ≤ fuel →
            evaluate? fuel controller scope random marks tree = some (result, state) :=
  ⟨fun tree name _ bottom deep => iterate_differentiateNode tree name deep bottom,
    fun _ scope random marks tree refused => evaluate?_concludes refused scope random marks tree⟩

/-- The derivative of `x ^ x` takes the derivative of a product with a logarithm.  Its
evaluation looks up `x`, whose value assigns a name in the frame around it. -/
theorem self_power_derivative_ends :
    let tree : Expr := .arith .pow (.var "x") (.var "x")
    let scope : Scope := ⟨[("x", .assignment (.var "y") (.arith .add (.var "y") (.int 1)))],
      [[("y", .call₂ .diff (.arith .pow (.var "z") (.int 2)) (.var "z"))]]⟩
    depthFor tree.size ≤ 2 ^ 20 ∧ loopsAllowed (some .new) = false ∧
      (differentiateNode · "x")^[2 ^ 20] (fun _ => pure (.var "unused")) tree =
        tree.differentiate "x" ∧
      ∃ result state needed, ∀ fuel, needed ≤ fuel →
        evaluate? fuel (some .new) scope (.ofSeed 1) 0 (.call₂ .diff tree (.var "x")) =
          some (result, state) := by
  intro tree scope
  have deep : depthFor tree.size ≤ 2 ^ 20 := by decide
  have refused : loopsAllowed (some .new) = false := rfl
  exact ⟨deep, refused, differentiation_and_evaluation_end.1 tree "x" (2 ^ 20) _ deep,
    differentiation_and_evaluation_end.2 (some .new) scope (.ofSeed 1) 0 _ refused⟩

end Expr

end SymbolicAlgebra
