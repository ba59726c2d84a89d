import SymbolicAlgebra.Arithmetic.Engine
import SymbolicAlgebra.Proofs.Ensures
import SymbolicAlgebra.Proofs.Termination.Weight

/-!
# Engines that agree

Two engines that differ only far below answer a call alike: they take the same
steps to the same result.  A rule keeps the agreement when the engines agree on
every call that the rule makes, so the calls of a rule have to be known, and with
them the weights of the results that later calls are made of.

Calls are ordered by weight and, among calls of one weight, by a rank.  A call is
below another when it is lighter by a fixed margin, or no heavier and of lower
rank.
-/

namespace SymbolicAlgebra

namespace Traced

variable {First Second : Type}

/-- The two computations are the same, and their value meets the condition. -/
structure Alike (first second : Traced First) (condition : First → Prop) : Prop where
  same : first = second
  ensures : first.Ensures (fun _ => True) condition

namespace Alike

variable {condition : First → Prop} {later : Second → Prop} {first second : Traced First}

theorem refl (ensures : first.Ensures (fun _ => True) condition) : first.Alike first condition :=
  ⟨rfl, ensures⟩

theorem pure {value : First} (holds : condition value) :
    Alike (Pure.pure value) (Pure.pure value) condition :=
  refl (.pure holds)

theorem make {node : Expr} {condition : Expr → Prop}
    (holds : ∀ mark, condition (node.withMark mark)) :
    Alike (liftM (Expr.make node)) (liftM (Expr.make node)) condition :=
  refl (.make holds)

theorem step {taken : Step} : Alike (Traced.step taken) (Traced.step taken) fun _ => True :=
  refl (Ensures.step.mono fun _ _ => trivial)

theorem mono {weaker : First → Prop} (alike : first.Alike second condition)
    (implies : ∀ value, condition value → weaker value) : first.Alike second weaker :=
  ⟨alike.same, alike.ensures.mono implies⟩

theorem bind {next other : First → Traced Second} (alike : first.Alike second condition)
    (continues : ∀ value, condition value → (next value).Alike (other value) later) :
    (first >>= next).Alike (second >>= other) later := by
  obtain ⟨rfl, ensures⟩ := alike
  refine ⟨?_, ensures.bind fun value holds => (continues value holds).ensures⟩
  -- The two continuations are only known to be the same where the value is.
  apply congrArg Traced.mk
  funext start
  have same := (continues _ (ensures start fun _ _ => trivial)).same
  exact congrArg
    (fun following : Traced Second =>
      let later := following.run (first.marks start)
      Outcome.mk later.value later.marks (first.steps start ++ later.steps)) same

theorem forEach {compute other : First → Traced Second} {items : List First}
    {condition : First → Second → Prop}
    (each : ∀ item ∈ items, (compute item).Alike (other item) (condition item)) :
    (Traced.forEach compute items).Alike (Traced.forEach other items)
      (List.Forall₂ condition items) := by
  induction items with
  | nil => exact pure .nil
  | cons item items ih =>
      have ⟨first, rest⟩ := List.forall_mem_cons.mp each
      exact bind first fun result holds => bind (ih rest) fun results all =>
        pure (.cons holds all)

end Alike

end Traced

namespace Rule

variable {First Second : Type}

/-- The two rules are the same, and their result meets the condition where they
apply. -/
def Alike (first second : Rule First) (condition : First → Prop) : Prop :=
  Traced.Alike first.run second.run fun result => ∀ value, result = some value → condition value

namespace Alike

variable {condition : First → Prop} {later : Second → Prop} {first second : Rule First}

theorem refl (ensures : first.Ensures (fun _ => True) condition) : first.Alike first condition :=
  Traced.Alike.refl ensures

theorem pure {value : First} (holds : condition value) :
    Alike (Pure.pure value) (Pure.pure value) condition :=
  refl (.pure holds)

theorem failure : Alike (Alternative.failure : Rule First) Alternative.failure condition :=
  refl .failure

theorem mono {weaker : First → Prop} (alike : first.Alike second condition)
    (implies : ∀ value, condition value → weaker value) : first.Alike second weaker :=
  Traced.Alike.mono alike fun _ holds value found => implies value (holds value found)

theorem lift {computation other : Traced First} (alike : computation.Alike other condition) :
    Alike (liftM computation) (liftM other) condition :=
  alike.bind fun _ holds => .pure fun _ equal => Option.some.inj equal ▸ holds

theorem bind {next other : First → Rule Second} (alike : first.Alike second condition)
    (continues : ∀ value, condition value → (next value).Alike (other value) later) :
    (first >>= next).Alike (second >>= other) later := by
  unfold Alike
  rw [OptionT.run_bind, OptionT.run_bind]
  refine Traced.Alike.bind alike fun result holds => ?_
  cases result with
  | none => exact failure
  | some value => exact continues value (holds value rfl)

theorem orElse {third fourth : Rule First} (alike : first.Alike second condition)
    (otherwise : third.Alike fourth condition) :
    (first <|> third).Alike (second <|> fourth) condition := by
  unfold Alike
  rw [OptionT.run_orElse, OptionT.run_orElse]
  refine Traced.Alike.bind alike fun result holds => ?_
  cases result with
  | none => exact otherwise
  | some value => exact pure (holds value rfl)

/-- After a rule that always applies, it does not matter which rules follow. -/
theorem orElse_of_succeeds {third : Rule First}
    (succeeds : first.Succeeds (fun _ => True) condition) :
    (first <|> second).run.Alike (first <|> third).run
      fun result => ∃ value, result = some value ∧ condition value := by
  rw [OptionT.run_orElse, OptionT.run_orElse]
  refine Traced.Alike.bind (.refl succeeds) ?_
  rintro _ ⟨value, rfl, holds⟩
  exact .pure ⟨value, rfl, holds⟩

/-- A rule followed by a computation for the case that it does not apply. -/
theorem run_match {next other : Option First → Traced Second} (alike : first.Alike second condition)
    (found : ∀ value, condition value → (next (some value)).Alike (other (some value)) later)
    (missing : (next none).Alike (other none) later) :
    (first.run >>= next).Alike (second.run >>= other) later := by
  refine Traced.Alike.bind alike fun result holds => ?_
  cases result with
  | none => exact missing
  | some value => exact found value (holds value rfl)

end Alike

end Rule

/-! ## Calls -/

/-- A call of the arithmetic that rules fall back on. -/
inductive Call where
  | binary (op : ArithOp) (left right : Expr)
  | negate (operand : Expr)

/-- The tree is the leaf of the number, or of an undefined one. -/
def IsResult (number : Number) (tree : Expr) : Prop :=
  ∃ value mark, tree = .number value mark ∧ (value = number ∨ value.isNaN = true)

namespace IsResult

variable {number : Number} {tree : Expr}

theorem weight_le (isResult : IsResult number tree) : tree.weight ≤ 9 / 4 := by
  obtain ⟨value, mark, rfl, _⟩ := isResult
  exact value.weight_le

theorem weight_le_weight (isResult : IsResult number tree) : tree.weight ≤ number.weight := by
  obtain ⟨value, mark, rfl, rfl | undefined⟩ := isResult
  · exact le_refl _
  · rw [Expr.weight_number, Number.weight_of_isNaN undefined]
    exact number.le_weight

end IsResult

namespace Call

/-- The node that the call is about. -/
def node : Call → Expr
  | .binary op left right => .arith op left right
  | .negate operand => .unary .neg operand

/-- The rank of a call among those of its weight: first the negation of numbers,
then products that a sign has been moved to the coefficient of, and last powers
whose exponent has yet to take one. -/
def rank : Call → Nat
  | .negate operand => if operand.toNumber?.isSome then 0 else 3
  | .binary .mul left _ =>
      match left.asNumber? with
      | some coefficient => if coefficient.isSigned then 1 else 2
      | none => 4
  | .binary .pow _ exponent => if exponent.asNumber?.any (!·.isSigned) then 6 else 5
  | .binary _ _ _ => 4

/-- The number that a call on numbers asks for. -/
def number? : Call → Option Number
  | .binary op (.number x _) (.number y _) => some (op.onNumbers x y)
  | .negate (.number x _) => some x.neg
  | _ => none

/-- The result is no heavier than the call, and computed if it is of numbers. -/
structure Fits (call : Call) (result : Expr) : Prop where
  light : result.weight ≤ call.node.weight
  computed : ∀ number, call.number? = some number → IsResult number result

/-- The call is lighter by a margin, or no heavier and of lower rank. -/
def Below (call : Call) (bound : ℚ) (rank : Nat) : Prop :=
  call.node.weight + 1 / 4 ≤ bound ∨ call.node.weight ≤ bound ∧ call.rank < rank

theorem Below.weight_le {call : Call} {bound : ℚ} {rank : Nat} (below : call.Below bound rank) :
    call.node.weight ≤ bound := by
  rcases below with gap | ⟨light, _⟩ <;> linarith

end Call

namespace Kernel

/-- The answer of an engine to a call. -/
def answer (kernel : Kernel) : Call → Traced Expr
  | .binary op left right => kernel.binary op left right
  | .negate operand => kernel.negate operand

/-- The engines answer all calls below a weight and a rank alike. -/
def AgreeBelow (first second : Kernel) (bound : ℚ) (rank : Nat) : Prop :=
  ∀ call : Call, call.Below bound rank → (first.answer call).Alike (second.answer call) call.Fits

namespace AgreeBelow

variable {first second : Kernel} {bound lower limit : ℚ} {rank lesser : Nat} {op : ArithOp}
  {left right operand : Expr}

theorem restrict (agree : first.AgreeBelow second bound rank) (light : lower ≤ bound)
    (ranked : lesser ≤ rank) : first.AgreeBelow second lower lesser := by
  intro call below
  apply agree
  rcases below with gap | ⟨fits, callRank⟩
  · exact .inl (gap.trans light)
  · exact .inr ⟨fits.trans light, lt_of_lt_of_le callRank ranked⟩

/-- Below a weight that is less by the margin, ranks do not matter. -/
theorem strict (agree : first.AgreeBelow second bound rank) (gap : lower + 1 / 4 ≤ bound) :
    first.AgreeBelow second lower lesser := by
  intro call below
  apply agree
  left
  linarith [below.weight_le]

/-- The answer to a call is as light as the bound. -/
theorem below (agree : first.AgreeBelow second bound rank) (call : Call)
    (below : call.Below bound rank) :
    (first.answer call).Alike (second.answer call) (·.weight ≤ bound) :=
  (agree call below).mono fun _ fits => fits.light.trans below.weight_le

/-- The answer to a call that is lighter by the margin. -/
theorem binary (agree : first.AgreeBelow second bound rank)
    (gap : (Expr.arith op left right).weight + 1 / 4 ≤ bound)
    (light : (Expr.arith op left right).weight ≤ limit) :
    (first.binary op left right).Alike (second.binary op left right) (·.weight ≤ limit) :=
  (agree (.binary op left right) (.inl gap)).mono fun _ fits => fits.light.trans light

theorem negate (agree : first.AgreeBelow second bound rank)
    (below : (Call.negate operand).Below bound rank) (light : 3 / 2 * operand.weight ≤ limit) :
    (first.negate operand).Alike (second.negate operand) (·.weight ≤ limit) :=
  (agree _ below).mono fun _ fits => fits.light.trans light

end AgreeBelow

end Kernel

end SymbolicAlgebra
