import SymbolicAlgebra.Arithmetic.Kernel

/-!
# Conditions on the values of traced computations

A computation ensures a condition when its value meets the condition in every
run that takes only allowed steps.  The allowed steps stand for what a statement
assumes of the run, for instance that no number left the range.  A rule ensures
a condition when it meets it wherever it applies, and a computation that only
gives out marks when it meets it from every mark on.

The lemmas follow the ways in which computations are put together, so that a
proof about a computation can be read along its definition.
-/

namespace SymbolicAlgebra

namespace Marking

variable {First Second : Type}

/-- From every mark on, the value meets the condition. -/
def Ensures (compute : Marking First) (condition : First → Prop) : Prop :=
  ∀ start, condition (compute.run start).1

namespace Ensures

variable {condition : First → Prop} {later : Second → Prop}

theorem pure {value : First} (holds : condition value) :
    Ensures (Pure.pure value) condition :=
  fun _ => holds

theorem mono {compute : Marking First} {weaker : First → Prop} (ensures : Ensures compute condition)
    (implies : ∀ value, condition value → weaker value) : Ensures compute weaker :=
  fun start => implies _ (ensures start)

theorem bind {first : Marking First} {next : First → Marking Second}
    (ensures : Ensures first condition)
    (continues : ∀ value, condition value → Ensures (next value) later) :
    Ensures (first >>= next) later :=
  fun start => continues _ (ensures start) _

/-- A condition that does not depend on marks holds of a node that is made. -/
theorem make {node : Expr} {condition : Expr → Prop}
    (holds : ∀ mark, condition (node.withMark mark)) : Ensures (Expr.make node) condition :=
  fun start => holds (.made start)

end Ensures

end Marking

namespace Traced

variable {First Second : Type} {allowed : Step → Prop}

/-- In every run whose steps are all allowed, the value meets the condition. -/
def Ensures (allowed : Step → Prop) (computation : Traced First) (condition : First → Prop) :
    Prop :=
  ∀ start, (∀ step ∈ computation.steps start, allowed step) → condition (computation.value start)

namespace Ensures

variable {condition : First → Prop} {later : Second → Prop}

theorem pure {value : First} (holds : condition value) :
    Ensures allowed (Pure.pure value) condition :=
  fun _ _ => holds

theorem mono {computation : Traced First} {weaker : First → Prop}
    (ensures : Ensures allowed computation condition)
    (implies : ∀ value, condition value → weaker value) :
    Ensures allowed computation weaker :=
  fun start steps => implies _ (ensures start steps)

theorem bind {first : Traced First} {next : First → Traced Second}
    (ensures : Ensures allowed first condition)
    (continues : ∀ value, condition value → Ensures allowed (next value) later) :
    Ensures allowed (first >>= next) later := by
  intro start steps
  rw [steps_bind, List.forall_mem_append] at steps
  exact continues _ (ensures start steps.1) _ steps.2

/-- Fewer runs need to be looked at when fewer steps are allowed. -/
theorem restrict {fewer : Step → Prop} {computation : Traced First}
    (ensures : Ensures allowed computation condition) (admits : ∀ step, fewer step → allowed step) :
    Ensures fewer computation condition :=
  fun start steps => ensures start fun step member => admits step (steps step member)

theorem and {computation : Traced First} {other : First → Prop}
    (ensures : Ensures allowed computation condition)
    (otherEnsures : Ensures allowed computation other) :
    Ensures allowed computation fun value => condition value ∧ other value :=
  fun start steps => ⟨ensures start steps, otherEnsures start steps⟩

/-- What does not depend on the run may be assumed before it. -/
theorem assuming {computation : Traced First} {assumption : Prop}
    (ensures : assumption → Ensures allowed computation condition) :
    Ensures allowed computation fun value => assumption → condition value :=
  fun start steps assumed => ensures assumed start steps

/-- A step may be assumed to be allowed in what follows it. -/
theorem step {taken : Step} : Ensures allowed (Traced.step taken) fun _ => allowed taken :=
  fun _ steps => steps taken (List.mem_singleton.mpr rfl)

theorem ofMarking {compute : Marking First} (ensures : compute.Ensures condition) :
    Ensures allowed (liftM compute) condition :=
  fun start _ => ensures start

theorem make {node : Expr} {condition : Expr → Prop}
    (holds : ∀ mark, condition (node.withMark mark)) :
    Ensures allowed (liftM (Expr.make node)) condition :=
  ofMarking (.make holds)

theorem forEach {compute : First → Traced Second} {list : List First}
    (ensures : ∀ item ∈ list, Ensures allowed (compute item) later) :
    Ensures allowed (Traced.forEach compute list) (∀ result ∈ ·, later result) := by
  induction list with
  | nil => exact pure (List.forall_mem_nil _)
  | cons item list ih =>
      rw [List.forall_mem_cons] at ensures
      exact bind ensures.1 fun _ holds => bind (ih ensures.2) fun _ rest =>
        pure (List.forall_mem_cons.mpr ⟨holds, rest⟩)

/-- The leaf of a result, where an inexact result of exact operands is noted. -/
theorem numeric {operands : List Number} {result : Number} {condition : Expr → Prop}
    (holds : (operands.all Number.isExact = true → result.isExact = false →
      allowed (.inexact result)) → ∀ mark, condition (.number result mark)) :
    Ensures allowed (Traced.numeric operands result) condition := by
  unfold Traced.numeric
  split
  · rename_i noted
    simp only [Bool.and_eq_true, Bool.not_eq_true'] at noted
    exact bind step fun _ admitted =>
      make fun mark => holds (fun _ _ => admitted) mark
  · rename_i silent
    refine make fun mark => holds (fun operandsExact inexact => absurd ?_ silent) mark
    rw [operandsExact, inexact]
    rfl

end Ensures

end Traced

namespace Rule

variable {First Second : Type} {allowed : Step → Prop}

/-- In every run whose steps are all allowed, the result meets the condition if
the rule applies. -/
def Ensures (allowed : Step → Prop) (rule : Rule First) (condition : First → Prop) : Prop :=
  Traced.Ensures allowed rule.run fun result => ∀ value, result = some value → condition value

namespace Ensures

variable {condition : First → Prop} {later : Second → Prop}

theorem pure {value : First} (holds : condition value) :
    Ensures allowed (Pure.pure value) condition :=
  Traced.Ensures.pure fun _ equal => Option.some.inj equal ▸ holds

theorem failure : Ensures allowed (Alternative.failure : Rule First) condition :=
  Traced.Ensures.pure fun _ equal => nomatch equal

theorem lift {computation : Traced First} (ensures : Traced.Ensures allowed computation condition) :
    Ensures allowed (liftM computation) condition :=
  ensures.bind fun _ holds => Traced.Ensures.pure fun _ equal => Option.some.inj equal ▸ holds

theorem bind {first : Rule First} {next : First → Rule Second}
    (ensures : Ensures allowed first condition)
    (continues : ∀ value, condition value → Ensures allowed (next value) later) :
    Ensures allowed (first >>= next) later := by
  unfold Ensures
  rw [OptionT.run_bind]
  refine Traced.Ensures.bind ensures fun result holds => ?_
  cases result with
  | none => exact failure
  | some value => exact continues value (holds value rfl)

theorem orElse {first second : Rule First} (firstEnsures : Ensures allowed first condition)
    (secondEnsures : Ensures allowed second condition) :
    Ensures allowed (first <|> second) condition := by
  unfold Ensures
  rw [OptionT.run_orElse]
  refine Traced.Ensures.bind firstEnsures fun result holds => ?_
  cases result with
  | none => exact secondEnsures
  | some value => exact pure (holds value rfl)

/-- A test may be assumed to hold in what follows it. -/
theorem guarded {test : Prop} [Decidable test] : Ensures allowed (guard test) fun _ => test := by
  unfold guard
  split
  · exact pure ‹_›
  · exact failure

theorem ofOption {result : Option First} (holds : ∀ value, result = some value → condition value) :
    Ensures allowed (Rule.ofOption result) condition :=
  Traced.Ensures.pure holds

/-- A rule followed by a computation for the case that it does not apply. -/
theorem run_match {rule : Rule First} {next : Option First → Traced Second}
    (ensures : Ensures allowed rule condition)
    (found : ∀ value, condition value → Traced.Ensures allowed (next (some value)) later)
    (missing : Traced.Ensures allowed (next none) later) :
    Traced.Ensures allowed (rule.run >>= next) later := by
  refine Traced.Ensures.bind ensures fun result holds => ?_
  cases result with
  | none => exact missing
  | some value => exact found value (holds value rfl)

/-! ### Rules that never apply -/

theorem bind_none {first : Rule First} {next : First → Rule Second}
    (fails : Ensures allowed first fun _ => False) : Ensures allowed (first >>= next) later :=
  fails.bind fun _ impossible => impossible.elim

theorem run_none {rule : Rule First} {next : Option First → Traced Second}
    (fails : Ensures allowed rule fun _ => False)
    (missing : Traced.Ensures allowed (next none) later) :
    Traced.Ensures allowed (rule.run >>= next) later :=
  fails.run_match (fun _ impossible => impossible.elim) missing

end Ensures

/-- In every run whose steps are all allowed, the rule applies and the result
meets the condition. -/
def Succeeds (allowed : Step → Prop) (rule : Rule First) (condition : First → Prop) : Prop :=
  Traced.Ensures allowed rule.run fun result => ∃ value, result = some value ∧ condition value

namespace Succeeds

variable {condition : First → Prop} {later : Second → Prop}

theorem pure {value : First} (holds : condition value) :
    Succeeds allowed (Pure.pure value) condition :=
  Traced.Ensures.pure ⟨value, rfl, holds⟩

theorem lift {computation : Traced First} (ensures : Traced.Ensures allowed computation condition) :
    Succeeds allowed (liftM computation) condition :=
  ensures.bind fun value holds => Traced.Ensures.pure ⟨value, rfl, holds⟩

theorem mono {rule : Rule First} {weaker : First → Prop}
    (succeeds : Succeeds allowed rule condition)
    (implies : ∀ value, condition value → weaker value) : Succeeds allowed rule weaker := by
  refine Traced.Ensures.mono succeeds ?_
  rintro _ ⟨value, rfl, holds⟩
  exact ⟨value, rfl, implies value holds⟩

theorem ensures {rule : Rule First} (succeeds : Succeeds allowed rule condition) :
    Ensures allowed rule condition := by
  refine Traced.Ensures.mono succeeds ?_
  rintro _ ⟨value, rfl, holds⟩ _ ⟨⟩
  exact holds

theorem bind {first : Rule First} {next : First → Rule Second}
    (succeeds : Succeeds allowed first condition)
    (continues : ∀ value, condition value → Succeeds allowed (next value) later) :
    Succeeds allowed (first >>= next) later := by
  unfold Succeeds
  rw [OptionT.run_bind]
  refine Traced.Ensures.bind succeeds ?_
  rintro _ ⟨value, rfl, holds⟩
  exact continues value holds

theorem orElse {first second : Rule First} (succeeds : Succeeds allowed first condition) :
    Succeeds allowed (first <|> second) condition := by
  unfold Succeeds
  rw [OptionT.run_orElse]
  refine Traced.Ensures.bind succeeds ?_
  rintro _ ⟨value, rfl, holds⟩
  exact pure holds

/-- A rule that does not apply is passed over. -/
theorem failure_orElse {first second : Rule First} (fails : first = failure)
    (succeeds : Succeeds allowed second condition) :
    Succeeds allowed (first <|> second) condition := by
  subst fails
  exact succeeds

/-- A rule that applies, followed by a computation. -/
theorem run_match {rule : Rule First} {next : Option First → Traced Second}
    (succeeds : Succeeds allowed rule condition)
    (continues : ∀ value, condition value → Traced.Ensures allowed (next (some value)) later) :
    Traced.Ensures allowed (rule.run >>= next) later := by
  refine Traced.Ensures.bind succeeds ?_
  rintro _ ⟨value, rfl, holds⟩
  exact continues value holds

end Succeeds

/-- In every run whose steps are all allowed, the rule applies and the result meets a
condition, or it does not apply for a known reason. -/
def Decides (allowed : Step → Prop) (rule : Rule First) (condition : First → Prop)
    (reason : Prop) : Prop :=
  Traced.Ensures allowed rule.run fun result =>
    (∃ value, result = some value ∧ condition value) ∨ result = none ∧ reason

theorem Succeeds.decides {rule : Rule First} {condition : First → Prop} {reason : Prop}
    (succeeds : Succeeds allowed rule condition) : Decides allowed rule condition reason :=
  Traced.Ensures.mono succeeds fun _ => .inl

namespace Decides

variable {rule : Rule First} {condition : First → Prop} {later : Second → Prop}
  {reason weaker : Prop}

theorem failure (holds : reason) :
    Decides allowed (Alternative.failure : Rule First) condition reason :=
  Traced.Ensures.pure (.inr ⟨rfl, holds⟩)

theorem pure {value : First} (holds : condition value) :
    Decides allowed (Pure.pure value) condition reason :=
  Traced.Ensures.pure (.inl ⟨value, rfl, holds⟩)

theorem ensures (decides : Decides allowed rule condition reason) :
    Ensures allowed rule condition := by
  refine Traced.Ensures.mono decides ?_
  rintro _ (⟨value, rfl, holds⟩ | ⟨rfl, _⟩)
  · rintro _ ⟨⟩
    exact holds
  · nofun

theorem explain (decides : Decides allowed rule condition reason) (implies : reason → weaker) :
    Decides allowed rule condition weaker :=
  Traced.Ensures.mono decides fun _ => Or.imp_right (And.imp_right implies)

theorem bind {next : First → Rule Second} (decides : Decides allowed rule condition reason)
    (continues : ∀ value, condition value → Decides allowed (next value) later reason) :
    Decides allowed (rule >>= next) later reason := by
  unfold Decides
  rw [OptionT.run_bind]
  refine Traced.Ensures.bind decides ?_
  rintro _ (⟨value, rfl, holds⟩ | ⟨rfl, holds⟩)
  · exact continues value holds
  · exact failure holds

theorem orElse {other : Rule First} (decides : Decides allowed rule condition weaker)
    (otherwise : weaker → Decides allowed other condition reason) :
    Decides allowed (rule <|> other) condition reason := by
  unfold Decides
  rw [OptionT.run_orElse]
  refine Traced.Ensures.bind decides ?_
  rintro _ (⟨value, rfl, holds⟩ | ⟨rfl, holds⟩)
  · exact pure holds
  · exact otherwise holds

theorem run_match {next : Option First → Traced Second}
    (decides : Decides allowed rule condition reason)
    (found : ∀ value, condition value → Traced.Ensures allowed (next (some value)) later)
    (missing : reason → Traced.Ensures allowed (next none) later) :
    Traced.Ensures allowed (rule.run >>= next) later := by
  refine Traced.Ensures.bind decides ?_
  rintro _ (⟨value, rfl, holds⟩ | ⟨rfl, holds⟩)
  · exact found value holds
  · exact missing holds

end Decides

end Rule

end SymbolicAlgebra
