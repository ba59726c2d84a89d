import SymbolicAlgebra.Configuration
import SymbolicAlgebra.Proofs.Nesting

/-!
# The scratch pool

A controller keeps idle buffers for later use.  However it is used, the pool holds at
most as many buffers as it has room for, and all of them are empty.

A buffer that is handed back may find the pool filled up by others in the meantime, and
is then dropped.  Since every computation hands back what it takes, the last one first,
the pool is still at least as full after a computation as it was before.
-/

namespace SymbolicAlgebra

open SymbolicAlgebra.Expr

namespace Controller

variable {controller : Controller} {steps : List Step}

/-- The pool is not over its capacity, and all buffers in it are empty. -/
structure Tidy (controller : Controller) : Prop where
  within : controller.pooled ≤ controller.capacity
  empty : ∀ buffer ∈ controller.pool, buffer = []

/-! ## Single steps -/

theorem capacity_checkout (controller : Controller) :
    controller.checkout.2.capacity = controller.capacity := by
  unfold checkout
  split <;> rfl

theorem pooled_checkout (controller : Controller) :
    controller.checkout.2.pooled = controller.pooled - 1 := by
  unfold checkout pooled
  split
  · rename_i none
    rw [none]
    rfl
  · rename_i buffer rest found
    rw [found]
    rfl

theorem capacity_giveBack (controller : Controller) (buffer : List Expr) :
    (controller.giveBack buffer).capacity = controller.capacity := by
  unfold giveBack
  split <;> rfl

theorem Tidy.pooled_giveBack (tidy : controller.Tidy) (buffer : List Expr) :
    (controller.giveBack buffer).pooled = min (controller.pooled + 1) controller.capacity := by
  have within := tidy.within
  unfold giveBack
  unfold pooled at within ⊢
  split
  · rw [List.length_cons]
    omega
  · omega

theorem Tidy.checkout (tidy : controller.Tidy) : controller.checkout.2.Tidy where
  within := by
    have within := tidy.within
    rw [pooled_checkout, capacity_checkout]
    omega
  empty := by
    have empty := tidy.empty
    unfold Controller.checkout
    split
    · exact empty
    · rename_i buffer rest found
      rw [found] at empty
      exact (List.forall_mem_cons.mp empty).2

/-- A buffer that is taken is empty. -/
theorem Tidy.checkout_empty (tidy : controller.Tidy) : controller.checkout.1 = [] := by
  unfold Controller.checkout
  split
  · rfl
  · rename_i buffer rest found
    exact tidy.empty buffer (found ▸ List.mem_cons_self)

theorem Tidy.giveBack (tidy : controller.Tidy) (buffer : List Expr) :
    (controller.giveBack buffer).Tidy where
  within := by
    rw [tidy.pooled_giveBack, capacity_giveBack]
    exact Nat.min_le_right _ _
  empty := by
    unfold Controller.giveBack
    split
    · exact List.forall_mem_cons.mpr ⟨rfl, tidy.empty⟩
    · exact tidy.empty

theorem Tidy.withCapacity (tidy : controller.Tidy) (capacity : Nat) :
    (controller.withCapacity capacity).Tidy where
  within := by
    unfold Controller.withCapacity pooled
    dsimp only
    rw [List.length_drop]
    omega
  empty buffer member := tidy.empty buffer (List.mem_of_mem_drop member)

theorem Tidy.new : Controller.new.Tidy := ⟨Nat.zero_le _, List.forall_mem_nil _⟩

/-! ## Traces -/

theorem replay_append (controller : Controller) (first second : List Step) :
    controller.replay (first ++ second) = (controller.replay first).replay second :=
  List.foldl_append

theorem replay_cons (controller : Controller) (step : Step) (rest : List Step) :
    controller.replay (step :: rest) = (controller.observe step).replay rest := rfl

theorem observe_of_isQuiet {step : Step} (isQuiet : step.isQuiet = true)
    (controller : Controller) : controller.observe step = controller := by
  cases step <;> first | rfl | cases isQuiet

theorem capacity_observe (controller : Controller) (step : Step) :
    (controller.observe step).capacity = controller.capacity := by
  cases step with
  | checkout found => exact capacity_checkout controller
  | giveBack left => exact capacity_giveBack controller left
  | _ => rfl

theorem capacity_replay (controller : Controller) (steps : List Step) :
    (controller.replay steps).capacity = controller.capacity := by
  induction steps generalizing controller with
  | nil => rfl
  | cons step steps ih => rw [replay_cons, ih, capacity_observe]

theorem Tidy.observe (tidy : controller.Tidy) (step : Step) : (controller.observe step).Tidy := by
  cases step with
  | checkout found => exact tidy.checkout
  | giveBack left => exact tidy.giveBack left
  | _ => exact tidy

/-- The pool stays tidy at every point of a trace, however buffers are used in it. -/
theorem Tidy.replay (tidy : controller.Tidy) (steps : List Step) :
    (controller.replay steps).Tidy := by
  induction steps generalizing controller with
  | nil => exact tidy
  | cons step steps ih => exact ih (tidy.observe step)

/-- Where buffers are taken and handed back like brackets, the pool ends up at least as
full as it was. -/
theorem Tidy.pooled_le_replay (tidy : controller.Tidy) (bracketed : Bracketed steps) :
    controller.pooled ≤ (controller.replay steps).pooled := by
  induction bracketed generalizing controller with
  | nil => exact Nat.le_refl _
  | quiet isQuiet _ ih =>
      rw [replay_cons, observe_of_isQuiet isQuiet]
      exact ih tidy
  | @buffer left inner rest _ _ innerIH restIH =>
      have within := tidy.within
      rw [replay_cons, replay_append, replay_cons]
      have inside : controller.pooled - 1 ≤ (controller.checkout.2.replay inner).pooled :=
        pooled_checkout controller ▸ innerIH tidy.checkout
      have returned : (controller.checkout.2.replay inner).Tidy := tidy.checkout.replay inner
      have room : (controller.checkout.2.replay inner).capacity = controller.capacity := by
        rw [capacity_replay, capacity_checkout]
      -- The buffer is dropped only when the pool has been filled up meanwhile.
      calc controller.pooled
        _ ≤ min ((controller.checkout.2.replay inner).pooled + 1) controller.capacity := by omega
        _ = ((controller.checkout.2.replay inner).giveBack left).pooled := by
          rw [returned.pooled_giveBack, room]
        _ ≤ _ := restIH (returned.giveBack left)

/-! ## Uses of a controller -/

/-- The controllers that come about by setting one up, changing its settings, taking and
handing back buffers, and evaluating, differentiating and solving under it. -/
inductive Reachable : Controller → Prop where
  | new : Reachable .new
  | permissive : Reachable .permissive
  | configured (configuration : Configuration) (marks : Nat) :
      Reachable (configuration.controller.value marks)
  | withLoops {controller : Controller} (allow : Bool) :
      Reachable controller → Reachable (controller.withLoops allow)
  | withRandom {controller : Controller} (allow : Bool) :
      Reachable controller → Reachable (controller.withRandom allow)
  | withCapacity {controller : Controller} (capacity : Nat) :
      Reachable controller → Reachable (controller.withCapacity capacity)
  | withPollMillis {controller : Controller} (millis : Nat) :
      Reachable controller → Reachable (controller.withPollMillis millis)
  | withSignals {controller : Controller} (stopped : Nat → Bool) :
      Reachable controller → Reachable (controller.withSignals stopped)
  | stop {controller : Controller} : Reachable controller → Reachable controller.stop
  | reset {controller : Controller} : Reachable controller → Reachable controller.reset
  | checkout {controller : Controller} : Reachable controller → Reachable controller.checkout.2
  | giveBack {controller : Controller} (buffer : List Expr) :
      Reachable controller → Reachable (controller.giveBack buffer)
  | evaluate {controller : Controller} {fuel scope random marks tree value state} :
      Reachable controller →
        evaluate? fuel (some controller) scope random marks tree = some (value, state) →
          Reachable (controller.replay state.trace)
  | differentiate {controller : Controller} (tree : Expr) (name : String) (marks : Nat) :
      Reachable controller →
        Reachable (controller.replay ((tree.differentiate name).steps marks))
  | solve {controller : Controller} (equation : Expr) (name : String) (marks : Nat) :
      Reachable controller → Reachable (controller.replay ((equation.solve name).steps marks))

theorem Reachable.tidy (reachable : controller.Reachable) : controller.Tidy := by
  have granted {controller : Controller} (tidy : controller.Tidy) (loops random : Bool)
      (poll : Nat) (stopped : Nat → Bool) :
      Tidy { controller with
        allowLoops := loops, allowRandom := random, sleepPoll := poll, stopped := stopped } :=
    ⟨tidy.within, tidy.empty⟩
  induction reachable with
  | new => exact .new
  | permissive => exact granted .new _ _ _ _
  | configured configuration marks => exact granted ((granted .new _ _ _ _).withCapacity _) _ _ _ _
  | withLoops _ _ ih | withRandom _ _ ih | withPollMillis _ _ ih => exact granted ih _ _ _ _
  | withSignals _ _ ih | stop _ ih | reset _ ih => exact granted ih _ _ _ _
  | withCapacity capacity _ ih => exact ih.withCapacity capacity
  | checkout _ ih => exact ih.checkout
  | giveBack buffer _ ih => exact ih.giveBack buffer
  | evaluate _ _ ih => exact ih.replay _
  | differentiate _ _ _ _ ih => exact ih.replay _
  | solve _ _ _ _ ih => exact ih.replay _

/-- Under every controller that comes about by use, the pool is within its capacity and
holds empty buffers only, and an evaluation, a differentiation and a solution leave at
least as many buffers in it as there were. -/
theorem pool_within_capacity_and_never_drained (reachable : controller.Reachable) :
    controller.pooled ≤ controller.capacity ∧
    (∀ buffer ∈ controller.pool, buffer = []) ∧
    (∀ fuel scope random marks tree value state,
      evaluate? fuel (some controller) scope random marks tree = some (value, state) →
        controller.pooled ≤ (controller.replay state.trace).pooled) ∧
    (∀ tree name marks, controller.pooled ≤
      (controller.replay ((differentiate tree name).steps marks)).pooled) ∧
    ∀ equation name marks, controller.pooled ≤
      (controller.replay ((solve equation name).steps marks)).pooled := by
  have tidy := reachable.tidy
  refine ⟨tidy.within, tidy.empty, ?_, fun tree name marks => ?_, fun equation name marks => ?_⟩
  · intro fuel scope random marks tree value state returns
    exact tidy.pooled_le_replay (evaluate?_nests returns)
  · exact tidy.pooled_le_replay (differentiate_nests tree name marks)
  · exact tidy.pooled_le_replay (solve_nests equation name marks)

/-- Adding up two variables under a controller with room for one buffer takes two buffers
from an empty pool and leaves one in it. -/
theorem sum_leaves_a_buffer :
    let controller := Controller.new.withCapacity 1
    let sum : Expr := .arith .add (.var "x") (.var "y")
    ∃ value state, evaluate? 5 (some controller) .empty (.ofSeed 0) 0 sum = some (value, state) ∧
      (controller.replay state.trace).Reachable ∧ (controller.replay state.trace).pooled = 1 ∧
      (controller.replay state.trace).pooled ≤ (controller.replay state.trace).capacity ∧
      ∀ buffer ∈ (controller.replay state.trace).pool, buffer = [] := by
  intro controller sum
  have filled : (evaluate? 5 (some controller) .empty (.ofSeed 0) 0 sum).map
      (fun run => (controller.replay run.2.trace).pooled) = some 1 := by
    decide +kernel
  obtain ⟨⟨value, state⟩, returns, pooled⟩ := Option.map_eq_some_iff.mp filled
  have reachable := Reachable.evaluate (.withCapacity 1 .new) returns
  obtain ⟨within, empty, -⟩ := pool_within_capacity_and_never_drained reachable
  exact ⟨value, state, returns, reachable, pooled, within, empty⟩

end Controller

end SymbolicAlgebra
