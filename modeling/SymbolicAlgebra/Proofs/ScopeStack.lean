import Mathlib.Data.List.Nodup
import SymbolicAlgebra.Proofs.ShadowedBindings

/-!
# Scopes as stacks of finite maps

A scope is used through four operations: a name is bound in the current frame or
assigned wherever it is bound, a frame is opened, and the current frame is closed.
Every sequence of them, begun in the empty root, keeps the names of each frame
distinct, so that the first binding of a name in a frame is its only one.

An assignment writes to one frame, the innermost that binds the name.  Hence the
frames around a frame that is opened and closed again come back with their names,
and with new values only where an assignment in between went past the inner frames.
-/

namespace SymbolicAlgebra

/-! ## Frames as finite maps -/

namespace Frame

variable {frame : Frame} {name : String} {value : Expr}

/-- The names that a frame binds, in the order in which they were first bound. -/
def names (frame : Frame) : List String := frame.map Prod.fst

theorem lookup?_eq_none_iff : frame.lookup? name = none ↔ name ∉ frame.names := by
  simp only [lookup?, Option.map_eq_none_iff, List.find?_eq_none, names, List.mem_map, not_exists,
    not_and, decide_eq_true_eq]

theorem binds_iff : frame.binds name = true ↔ name ∈ frame.names := by
  rw [binds, Option.isSome_iff_ne_none, ne_eq, lookup?_eq_none_iff, not_not]

theorem mem_of_lookup? (found : frame.lookup? name = some value) : (name, value) ∈ frame := by
  obtain ⟨binding, first, rfl⟩ := Option.map_eq_some_iff.mp found
  have same : binding.1 = name := by simpa using List.find?_some first
  exact same ▸ List.mem_of_find?_eq_some first

/-- A frame without repeated names binds a name to the value that stands beside it. -/
theorem lookup?_eq_some_iff (distinct : frame.names.Nodup) :
    frame.lookup? name = some value ↔ (name, value) ∈ frame := by
  refine ⟨mem_of_lookup?, fun member => ?_⟩
  cases found : frame.lookup? name with
  | none => exact absurd (List.mem_map_of_mem member) (lookup?_eq_none_iff.mp found)
  | some other =>
      have same := List.inj_on_of_nodup_map distinct (mem_of_lookup? found) member rfl
      exact congrArg some (Prod.ext_iff.mp same).2

theorem names_bind (frame : Frame) (name : String) (value : Expr) :
    (frame.bind name value).names =
      if name ∈ frame.names then frame.names else frame.names ++ [name] := by
  induction frame with
  | nil => rfl
  | cons binding frame ih =>
      obtain ⟨bound, old⟩ := binding
      unfold Frame.bind
      split
      · rename_i same
        simp [names, same]
      · rename_i differs
        have fresh : ¬name = bound := Ne.symm differs
        simp only [names, List.map_cons, List.mem_cons, fresh, false_or] at ih ⊢
        rw [ih]
        by_cases isBound : name ∈ List.map Prod.fst frame <;> simp [isBound]

theorem nodup_bind (distinct : frame.names.Nodup) : (frame.bind name value).names.Nodup := by
  rw [names_bind]
  split
  · exact distinct
  · rename_i absent
    exact List.nodup_append.mpr ⟨distinct, List.nodup_singleton name,
      fun bound inFrame fresh isFresh same =>
        absent (List.mem_singleton.mp isFresh ▸ same ▸ inFrame)⟩

end Frame

/-! ## Operations on a stack -/

/-- What is done to a scope. -/
inductive ScopeOperation where
  | bind (name : String) (value : Expr)
  | assign (name : String) (value : Expr)
  | push
  | pop

namespace ScopeOperation

/-- The names and values that are assigned, in order. -/
def assignments : List ScopeOperation → List (String × Expr)
  | [] => []
  | .assign name value :: rest => (name, value) :: assignments rest
  | _ :: rest => assignments rest

/-- Every frame that is opened is closed again, and no other frame is closed. -/
inductive WellNested : List ScopeOperation → Prop where
  | nil : WellNested []
  | bind {name value rest} : WellNested rest → WellNested (.bind name value :: rest)
  | assign {name value rest} : WellNested rest → WellNested (.assign name value :: rest)
  | frame {inner rest} : WellNested inner → WellNested rest →
      WellNested (.push :: (inner ++ .pop :: rest))

theorem WellNested.append {first second : List ScopeOperation} (left : WellNested first)
    (right : WellNested second) : WellNested (first ++ second) := by
  induction left with
  | nil => exact right
  | bind _ ih => exact .bind ih
  | assign _ ih => exact .assign ih
  | @frame inner rest innerNested _ _ ih =>
      rw [List.cons_append, List.append_assoc, List.cons_append]
      exact .frame innerNested ih

theorem assignments_append (first second : List ScopeOperation) :
    assignments (first ++ second) = assignments first ++ assignments second := by
  induction first with
  | nil => rfl
  | cons operation first ih => cases operation <;> simp [assignments, ih]

end ScopeOperation

namespace Scope

open ScopeOperation

variable {scope opened after : Scope} {name other : String} {value : Expr}
  {operations : List ScopeOperation}

/-- The scope after an operation; the root cannot be closed. -/
def perform? (scope : Scope) : ScopeOperation → Option Scope
  | .bind name value => some (scope.bind name value)
  | .assign name value => some (scope.assign name value)
  | .push => some scope.push
  | .pop => scope.pop?

/-- The scope after some operations, one after the other. -/
def run? (scope : Scope) (operations : List ScopeOperation) : Option Scope :=
  operations.foldlM perform? scope

theorem run?_cons (scope : Scope) (operation : ScopeOperation) (rest : List ScopeOperation) :
    scope.run? (operation :: rest) = (scope.perform? operation).bind (·.run? rest) :=
  List.foldlM_cons

theorem run?_append (scope : Scope) (first second : List ScopeOperation) :
    scope.run? (first ++ second) = (scope.run? first).bind (·.run? second) :=
  List.foldlM_append

theorem run?_append_eq_some {first second : List ScopeOperation}
    (runs : scope.run? (first ++ second) = some after) :
    ∃ between, scope.run? first = some between ∧ between.run? second = some after := by
  rw [run?_append] at runs
  exact Option.bind_eq_some_iff.mp runs

theorem run?_singleton (scope : Scope) (operation : ScopeOperation) :
    scope.run? [operation] = scope.perform? operation := by
  rw [run?_cons]
  exact Option.bind_fun_some (scope.perform? operation)

theorem frames_ofFrames {frames : List Frame} (inhabited : frames ≠ []) :
    (ofFrames frames).frames = frames := by
  cases frames with
  | nil => exact absurd rfl inhabited
  | cons frame rest => rfl

theorem pop?_eq_some (closes : scope.pop? = some after) : scope.enclosing = after.frames := by
  unfold pop? at closes
  split at closes
  · cases closes
  · rename_i found
    cases closes
    exact found

/-! ## No frame repeats a name -/

/-- Each frame binds a name once. -/
def Distinct (scope : Scope) : Prop := ∀ frame ∈ scope.frames, frame.names.Nodup

/-- What a write to one frame of a stack keeps of all frames. -/
theorem forall_mem_modify {Holds : Frame → Prop} {change : Frame → Frame} {frames : List Frame}
    (kept : ∀ frame, Holds frame → Holds (change frame)) (all : ∀ frame ∈ frames, Holds frame)
    (level : Nat) : ∀ frame ∈ frames.modify level change, Holds frame := by
  induction frames generalizing level with
  | nil => cases level <;> exact all
  | cons frame rest ih =>
      rw [List.forall_mem_cons] at all
      cases level with
      | zero =>
          rw [List.modify_zero_cons]
          exact List.forall_mem_cons.mpr ⟨kept frame all.1, all.2⟩
      | succ level =>
          rw [List.modify_succ_cons]
          exact List.forall_mem_cons.mpr ⟨all.1, ih all.2 level⟩

/-- How far out the frame is that an assignment writes to: the innermost one that binds
the name, or else the current one. -/
def writtenLevel (scope : Scope) (name : String) : Nat :=
  (scope.frames.findIdx? (·.binds name)).getD 0

theorem overwrite?_eq_modify (name : String) (value : Expr) (frames : List Frame) :
    overwrite? name value frames =
      (frames.findIdx? (·.binds name)).map fun level =>
        frames.modify level (Frame.bind name value) := by
  induction frames with
  | nil => rfl
  | cons frame rest ih =>
      rw [overwrite?, List.findIdx?_cons]
      split
      · rfl
      · rw [ih, Option.map_map, Option.map_map]
        rfl

/-- An assignment changes one frame. -/
theorem frames_assign (scope : Scope) (name : String) (value : Expr) :
    (scope.assign name value).frames =
      scope.frames.modify (scope.writtenLevel name) (Frame.bind name value) := by
  rw [assign, overwrite?_eq_modify, writtenLevel]
  cases scope.frames.findIdx? (·.binds name) with
  | none => rfl
  | some level =>
      refine frames_ofFrames fun none => ?_
      have same := congrArg List.length none
      rw [List.length_modify] at same
      cases same

theorem Distinct.modify (distinct : scope.Distinct) (level : Nat) :
    ∀ frame ∈ scope.frames.modify level (Frame.bind name value), frame.names.Nodup := by
  refine forall_mem_modify ?_ distinct level
  exact fun frame namesOnce => Frame.nodup_bind namesOnce

theorem Distinct.perform {operation : ScopeOperation} (distinct : scope.Distinct)
    (step : scope.perform? operation = some after) : after.Distinct := by
  cases operation with
  | bind name value =>
      cases step
      exact distinct.modify 0
  | assign name value =>
      cases step
      rw [Distinct, frames_assign]
      exact distinct.modify _
  | push =>
      cases step
      exact List.forall_mem_cons.mpr ⟨List.nodup_nil, distinct⟩
  | pop =>
      have parents := (List.forall_mem_cons.mp distinct).2
      rwa [pop?_eq_some step] at parents

theorem Distinct.run (distinct : scope.Distinct) (runs : scope.run? operations = some after) :
    after.Distinct := by
  induction operations generalizing scope with
  | nil => exact Option.some.inj runs ▸ distinct
  | cons operation rest ih =>
      rw [run?_cons] at runs
      obtain ⟨between, step, runs⟩ := Option.bind_eq_some_iff.mp runs
      exact ih (distinct.perform step) runs

theorem Distinct.empty : empty.Distinct :=
  List.forall_mem_singleton.mpr List.nodup_nil

/-! ## Looking names up -/

/-- The scope as it is seen from a frame further out. -/
def outwards (scope : Scope) (level : Nat) : Scope := ofFrames (scope.frames.drop level)

/-- The frames of a scope that may be missing. -/
def framesOf : Option Scope → List Frame
  | none => []
  | some scope => scope.frames

theorem findSome?_ofFrames (frames : List Frame) (name : String) :
    (ofFrames frames).lookup? name = frames.findSome? (·.lookup? name) := by
  rw [lookup?_eq_findSome?]
  cases frames <;> rfl

theorem split?_eq_some_iff {frames inner outer : List Frame} :
    split? name frames = some (inner, value, outer) ↔
      ∃ before frame, inner = before ++ [frame] ∧ frames = before ++ frame :: outer ∧
        (∀ closer ∈ before, name ∉ closer.names) ∧ frame.lookup? name = some value := by
  induction frames generalizing inner with
  | nil => simp [split?]
  | cons frame rest ih =>
      unfold split?
      cases found : frame.lookup? name with
      | some bound =>
          constructor
          · rintro ⟨⟩
            exact ⟨[], frame, rfl, rfl, List.forall_mem_nil _, found⟩
          · rintro ⟨before, holder, rfl, split, absent, shows⟩
            cases before with
            | nil =>
                cases split
                cases found.symm.trans shows
                rfl
            | cons closer before =>
                cases split
                have unbound := Frame.lookup?_eq_none_iff.mpr (List.forall_mem_cons.mp absent).1
                cases found.symm.trans unbound
      | none =>
          constructor
          · intro deeper
            obtain ⟨⟨_, _, _⟩, further, same⟩ := Option.map_eq_some_iff.mp deeper
            cases same
            obtain ⟨before, holder, rfl, rfl, absent, shows⟩ := ih.mp further
            exact ⟨frame :: before, holder, rfl, rfl,
              List.forall_mem_cons.mpr ⟨Frame.lookup?_eq_none_iff.mp found, absent⟩, shows⟩
          · rintro ⟨before, holder, rfl, split, absent, shows⟩
            cases before with
            | nil =>
                cases split
                cases found.symm.trans shows
            | cons closer before =>
                cases split
                have further :=
                  ih.mpr ⟨before, holder, rfl, rfl, (List.forall_mem_cons.mp absent).2, shows⟩
                exact Option.map_eq_some_iff.mpr ⟨_, further, rfl⟩

/-- A name has the value that stands beside it in the innermost frame that binds it, and
the scope that comes with the value consists of the frames around this one. -/
theorem Distinct.lookupWithOuter?_eq_some_iff (distinct : scope.Distinct)
    {outer : Option Scope} :
    scope.lookupWithOuter? name = some (value, outer) ↔
      ∃ inner frame, scope.frames = inner ++ frame :: framesOf outer ∧
        (∀ closer ∈ inner, name ∉ closer.names) ∧ (name, value) ∈ frame := by
  have isMember {inner rest : List Frame} {frame : Frame}
      (split : scope.frames = inner ++ frame :: rest) :
      frame.lookup? name = some value ↔ (name, value) ∈ frame :=
    Frame.lookup?_eq_some_iff (distinct frame (split ▸ List.mem_append_cons_self))
  constructor
  · intro found
    obtain ⟨⟨_, _, rest⟩, split, same⟩ := Option.map_eq_some_iff.mp found
    cases same
    obtain ⟨before, frame, rfl, frames, absent, shows⟩ := split?_eq_some_iff.mp split
    refine ⟨before, frame, ?_, absent, (isMember frames).mp shows⟩
    cases rest <;> exact frames
  · rintro ⟨inner, frame, frames, absent, member⟩
    have split := split?_eq_some_iff.mpr
      ⟨inner, frame, rfl, frames, absent, (isMember frames).mpr member⟩
    refine Option.map_eq_some_iff.mpr ⟨_, split, ?_⟩
    cases outer <;> rfl

/-- A name that has been overwritten in a stack has the new value there. -/
theorem findSome?_overwrite? {old new : List Frame}
    (overwrites : overwrite? name value old = some new) :
    new.findSome? (·.lookup? name) = some value := by
  induction old generalizing new with
  | nil => cases overwrites
  | cons frame rest ih =>
      unfold overwrite? at overwrites
      split at overwrites
      · cases overwrites
        rw [List.findSome?_cons, Frame.lookup?_bind, if_pos rfl]
      · rename_i unbound
        obtain ⟨changed, further, rfl⟩ := Option.map_eq_some_iff.mp overwrites
        have absent : frame.lookup? name = none :=
          Frame.lookup?_eq_none_iff.mpr fun bound => unbound (Frame.binds_iff.mpr bound)
        rw [List.findSome?_cons, absent]
        exact ih further

theorem lookup?_assign_self (scope : Scope) (name : String) (value : Expr) :
    (scope.assign name value).lookup? name = some value := by
  unfold assign
  split
  · rename_i frames overwrites
    rw [findSome?_ofFrames]
    exact findSome?_overwrite? overwrites
  · rw [lookup?_bind, if_pos rfl]

/-- A write to one frame shows in no other name. -/
theorem findSome?_modify (differs : name ≠ other) (frames : List Frame) (level : Nat) :
    (frames.modify level (Frame.bind name value)).findSome? (·.lookup? other) =
      frames.findSome? (·.lookup? other) := by
  induction frames generalizing level with
  | nil => cases level <;> rfl
  | cons frame rest ih =>
      cases level with
      | zero =>
          rw [List.modify_zero_cons, List.findSome?_cons, List.findSome?_cons,
            Frame.lookup?_bind, if_neg differs]
      | succ level =>
          rw [List.modify_succ_cons, List.findSome?_cons, List.findSome?_cons, ih]

/-- From every frame, other names look as they did before an assignment. -/
theorem outwards_lookup?_assign (scope : Scope) (differs : name ≠ other) (level : Nat) :
    ((scope.assign name value).outwards level).lookup? other =
      (scope.outwards level).lookup? other := by
  rw [outwards, outwards, frames_assign, findSome?_ofFrames, findSome?_ofFrames]
  rcases Nat.lt_or_ge (scope.writtenLevel name) level with inside | outside
  · rw [List.drop_modify_of_lt _ _ _ _ inside]
  · rw [List.drop_modify_of_ge _ _ _ _ outside, findSome?_modify differs]

/-! ## Frames that are opened and closed again -/

/-- Overwrites innermost bindings, one after the other; each name has to be bound. -/
def overwriteAll? (written : List (String × Expr)) (frames : List Frame) : Option (List Frame) :=
  written.foldlM (fun frames binding => overwrite? binding.1 binding.2 frames) frames

theorem overwriteAll?_cons (binding : String × Expr) (written : List (String × Expr))
    (frames : List Frame) :
    overwriteAll? (binding :: written) frames =
      (overwrite? binding.1 binding.2 frames).bind (overwriteAll? written) :=
  List.foldlM_cons

theorem overwriteAll?_append (first second : List (String × Expr)) (frames : List Frame) :
    overwriteAll? (first ++ second) frames =
      (overwriteAll? first frames).bind (overwriteAll? second) :=
  List.foldlM_append

theorem names_overwrite? {old new : List Frame}
    (overwrites : overwrite? name value old = some new) :
    new.map Frame.names = old.map Frame.names :=
  map_eq_of_forall₂ (fun rebinds => rebinds.map_fst)
    (overwrite?_rebinds (Set.mem_singleton name) overwrites)

theorem names_overwriteAll? {written : List (String × Expr)} {old new : List Frame}
    (overwrites : overwriteAll? written old = some new) :
    new.map Frame.names = old.map Frame.names := by
  induction written generalizing old with
  | nil => rw [Option.some.inj overwrites]
  | cons binding written ih =>
      rw [overwriteAll?_cons] at overwrites
      obtain ⟨between, first, rest⟩ := Option.bind_eq_some_iff.mp overwrites
      exact (ih rest).trans (names_overwrite? first)

/-- What is written to a stack is written in part to its innermost frame and in part to
the frames around it. -/
theorem overwriteAll?_tail {written : List (String × Expr)} {frame : Frame}
    {rest new : List Frame} (overwrites : overwriteAll? written (frame :: rest) = some new) :
    ∃ outwards, outwards.Sublist written ∧ overwriteAll? outwards rest = some new.tail := by
  induction written generalizing frame rest with
  | nil => exact ⟨[], .slnil, by cases overwrites; rfl⟩
  | cons binding written ih =>
      rw [overwriteAll?_cons, overwrite?] at overwrites
      split at overwrites
      · obtain ⟨outwards, isPart, reached⟩ := ih overwrites
        exact ⟨outwards, isPart.cons binding, reached⟩
      · obtain ⟨between, first, overwrites⟩ := Option.bind_eq_some_iff.mp overwrites
        obtain ⟨changed, further, rfl⟩ := Option.map_eq_some_iff.mp first
        obtain ⟨outwards, isPart, reached⟩ := ih overwrites
        refine ⟨binding :: outwards, isPart.cons_cons binding, ?_⟩
        rw [overwriteAll?_cons, further]
        exact reached

/-- An assignment reaches the frames around the current one, or it leaves them alone. -/
theorem enclosing_assign (scope : Scope) (name : String) (value : Expr) :
    (scope.assign name value).enclosing = scope.enclosing ∨
      overwrite? name value scope.enclosing = some (scope.assign name value).enclosing := by
  unfold assign
  split
  · rename_i frames overwrites
    rw [Scope.frames, overwrite?] at overwrites
    split at overwrites
    · cases overwrites
      exact .inl rfl
    · obtain ⟨changed, further, rfl⟩ := Option.map_eq_some_iff.mp overwrites
      exact .inr further
  · exact .inl rfl

/-- Well-nested operations overwrite the frames around the current one with some of the
assigned values, and change nothing else there. -/
theorem enclosing_of_wellNested (nested : WellNested operations)
    (runs : scope.run? operations = some after) :
    ∃ written, written.Sublist (assignments operations) ∧
      overwriteAll? written scope.enclosing = some after.enclosing := by
  induction nested generalizing scope after with
  | nil => exact ⟨[], .slnil, by cases runs; rfl⟩
  | @bind name value rest _ ih =>
      have bound : (scope.bind name value).run? rest = some after := runs
      have effect := ih bound
      exact effect
  | @assign name value rest _ ih =>
      rw [run?_cons] at runs
      obtain ⟨written, isPart, reached⟩ := ih runs
      rcases enclosing_assign scope name value with same | writes
      · exact ⟨written, isPart.cons _, same ▸ reached⟩
      · refine ⟨(name, value) :: written, isPart.cons_cons _, ?_⟩
        rw [overwriteAll?_cons, writes]
        exact reached
  | @frame inner rest _ _ innerIH restIH =>
      rw [run?_cons] at runs
      obtain ⟨innermost, innerRuns, runs⟩ := run?_append_eq_some runs
      rw [run?_cons] at runs
      obtain ⟨closed, closes, runs⟩ := Option.bind_eq_some_iff.mp runs
      obtain ⟨within, innerPart, innerReached⟩ := innerIH innerRuns
      obtain ⟨behind, restPart, restReached⟩ := restIH runs
      rw [pop?_eq_some closes] at innerReached
      obtain ⟨outwards, isPart, reached⟩ := overwriteAll?_tail innerReached
      refine ⟨outwards ++ behind, ?_, ?_⟩
      · rw [assignments, assignments_append]
        · exact (isPart.trans innerPart).append restPart
        all_goals simp
      · rw [overwriteAll?_append, reached]
        exact restReached

theorem length_enclosing_assign (scope : Scope) (name : String) (value : Expr) :
    (scope.assign name value).enclosing.length = scope.enclosing.length := by
  have same := congrArg List.length (frames_assign scope name value)
  rw [List.length_modify] at same
  exact Nat.succ.inj same

/-- A frame that is not the root was opened by a push that only well-nested operations
follow. -/
theorem exists_opening (runs : empty.run? operations = some scope)
    (inside : 0 < scope.enclosing.length) :
    ∃ before inner opened, operations = before ++ .push :: inner ∧ WellNested inner ∧
      empty.run? before = some opened ∧
      opened.enclosing.length + 1 = scope.enclosing.length := by
  induction size : operations.length using Nat.strong_induction_on
    generalizing operations scope with
  | _ bound ih =>
  subst size
  rcases List.eq_nil_or_concat operations with rfl | ⟨earlier, last, rfl⟩
  · cases runs
    cases inside
  · rw [List.concat_eq_append] at runs ih ⊢
    obtain ⟨between, reaches, step⟩ := run?_append_eq_some runs
    rw [run?_singleton] at step
    have shorter : earlier.length < (earlier ++ [last]).length := by
      rw [List.length_append]
      exact Nat.lt_succ_self _
    -- What neither opens nor closes a frame comes behind the push of the state before.
    have stays (depth : between.enclosing.length = scope.enclosing.length)
        (single : WellNested [last]) :
        ∃ before inner opened, earlier ++ [last] = before ++ .push :: inner ∧ WellNested inner ∧
          empty.run? before = some opened ∧
          opened.enclosing.length + 1 = scope.enclosing.length := by
      obtain ⟨before, inner, opened, rfl, nested, opens, level⟩ :=
        ih _ shorter reaches (depth ▸ inside) rfl
      exact ⟨before, inner ++ [last], opened, by simp, nested.append single, opens,
        level.trans depth⟩
    cases last with
    | bind name value =>
        cases step
        exact stays rfl (.bind .nil)
    | assign name value =>
        cases step
        exact stays (length_enclosing_assign between name value).symm (.assign .nil)
    | push =>
        cases step
        exact ⟨earlier, [], between, rfl, .nil, reaches, rfl⟩
    | pop =>
        have deeper : between.enclosing.length = scope.enclosing.length + 1 :=
          congrArg List.length (pop?_eq_some step)
        obtain ⟨before, inner, opened, rfl, nested, opens, level⟩ :=
          ih _ shorter reaches (deeper.symm ▸ Nat.succ_pos _) rfl
        have sameLevel : opened.enclosing.length = scope.enclosing.length :=
          Nat.succ.inj (level.trans deeper)
        obtain ⟨start, outer, parent, rfl, outerNested, parentOpens, parentLevel⟩ :=
          ih before.length (by simp) opens (sameLevel ▸ inside) rfl
        exact ⟨start, outer ++ .push :: (inner ++ [.pop]), parent, by simp,
          outerNested.append (.frame nested .nil), parentOpens, parentLevel.trans sameLevel⟩

/-- Closing a frame leads back to the scope in which it was opened: the frames bind the
same names, and the values differ by some of the assignments in between. -/
theorem pop_restores {closed : Scope} (runs : empty.run? operations = some scope)
    (closes : scope.pop? = some closed) :
    ∃ before inner opened, operations = before ++ .push :: inner ∧ WellNested inner ∧
      empty.run? before = some opened ∧
      closed.frames.map Frame.names = opened.frames.map Frame.names ∧
      ∃ written, written.Sublist (assignments inner) ∧
        overwriteAll? written opened.frames = some closed.frames := by
  have around := pop?_eq_some closes
  obtain ⟨before, inner, opened, rfl, nested, opens, -⟩ :=
    exists_opening runs (around ▸ Nat.succ_pos _)
  obtain ⟨start, starts, runs⟩ := run?_append_eq_some runs
  cases opens.symm.trans starts
  have pushed : opened.push.run? inner = some scope := runs
  obtain ⟨written, isPart, reached⟩ := enclosing_of_wellNested nested pushed
  rw [around] at reached
  exact ⟨before, inner, opened, rfl, nested, opens, names_overwriteAll? reached, written,
    isPart, reached⟩

/-- Every scope that operations build from the empty root is a stack of finite maps.

* No frame binds a name twice.
* After an assignment the name has the assigned value, one frame is changed, the
  innermost that binds the name or else the current one, and from every frame all
  other names look as before.
* A binding changes the current frame, and there the value of one name.
* A name has the value that stands in the innermost frame that binds it, and the
  scope that comes with the value consists of the frames around that one.
* Closing a frame leads back to the scope in which it was opened, with the same names
  in every frame and with values overwritten by some of the assignments in between. -/
theorem stack_of_finite_maps (runs : empty.run? operations = some scope) :
    (∀ frame ∈ scope.frames, frame.names.Nodup) ∧
    (∀ name value,
      (scope.assign name value).lookup? name = some value ∧
      (scope.assign name value).frames =
        scope.frames.modify (scope.writtenLevel name) (Frame.bind name value) ∧
      ∀ other, name ≠ other → ∀ level,
        ((scope.assign name value).outwards level).lookup? other =
          (scope.outwards level).lookup? other) ∧
    (∀ name value,
      (scope.bind name value).enclosing = scope.enclosing ∧
      ∀ other, (scope.bind name value).current.lookup? other =
        if name = other then some value else scope.current.lookup? other) ∧
    (∀ name value outer,
      scope.lookupWithOuter? name = some (value, outer) ↔
        ∃ inner frame, scope.frames = inner ++ frame :: framesOf outer ∧
          (∀ closer ∈ inner, name ∉ closer.names) ∧ (name, value) ∈ frame) ∧
    (∀ name, scope.lookup? name = (scope.lookupWithOuter? name).map (·.1)) ∧
    ∀ closed, scope.pop? = some closed →
      ∃ before inner opened, operations = before ++ .push :: inner ∧ WellNested inner ∧
        empty.run? before = some opened ∧
        closed.frames.map Frame.names = opened.frames.map Frame.names ∧
        ∃ written, written.Sublist (assignments inner) ∧
          overwriteAll? written opened.frames = some closed.frames := by
  have distinct := Distinct.empty.run runs
  refine ⟨distinct, fun name value => ⟨?_, ?_, ?_⟩, fun name value => ⟨rfl, ?_⟩, ?_, ?_, ?_⟩
  · exact lookup?_assign_self scope name value
  · exact frames_assign scope name value
  · exact fun other differs level => outwards_lookup?_assign scope differs level
  · exact fun other => Frame.lookup?_bind scope.current name other value
  · exact fun name value outer => distinct.lookupWithOuter?_eq_some_iff
  · exact fun name => rfl
  · exact fun closed closes => pop_restores runs closes

/-- A name that is assigned while an inner frame is open keeps its value when the frame
is closed, and the name that is bound in the inner frame is gone. -/
theorem inner_assignment_outlives_frame :
    let operations := [.bind "n" (.int 0), .push, .bind "x" (.int 1), .assign "n" (.int 5)]
    ∃ scope closed, empty.run? operations = some scope ∧
      (∀ frame ∈ scope.frames, frame.names.Nodup) ∧ scope.pop? = some closed ∧
      closed.lookup? "n" = some (.int 5) ∧ closed.lookup? "x" = none ∧
      ∃ before inner opened, operations = before ++ .push :: inner ∧ WellNested inner ∧
        empty.run? before = some opened ∧
        closed.frames.map Frame.names = opened.frames.map Frame.names := by
  intro operations
  have runs : empty.run? operations =
      some ⟨[("x", .int 1)], [[("n", .int 5)]]⟩ := rfl
  obtain ⟨distinct, -, -, -, -, restores⟩ := stack_of_finite_maps runs
  obtain ⟨before, inner, opened, splits, nested, opens, names, -⟩ := restores _ rfl
  exact ⟨_, _, runs, distinct, rfl, rfl, rfl, before, inner, opened, splits, nested, opens, names⟩

end Scope

end SymbolicAlgebra
