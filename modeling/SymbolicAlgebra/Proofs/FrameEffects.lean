import SymbolicAlgebra.Proofs.Confinement
import SymbolicAlgebra.Proofs.ScopeEffects

/-!
# What evaluation writes

An evaluation writes only the names that the tree assigns: the frames around the
current one keep their names, and the current one gains names only from
assignments outside the constructs that open a frame of their own.

The scope has to hold dormant values, which no evaluation makes assign.  Constants
are dormant, and so is every value of an evaluation, which is why a value that an
assignment has stored does no harm when it is evaluated later.
-/

namespace SymbolicAlgebra

/-- No evaluation of the tree assigns anything. -/
def Expr.Dormant (loops : Bool) : Expr → Prop := Confined loops ∅ 0 ∅

namespace Evaluation

variable {First Second : Type} {Holds : Expr → Prop} {names here : Set String}

/-- Started in a scope whose values have the property, the evaluation keeps that,
has no more than the given effect, and its result meets the condition. -/
def Affects (Holds : Expr → Prop) (names here : Set String) (compute : Evaluation First)
    (condition : First → Prop) : Prop :=
  ∀ state result after, state.scope.AllBound Holds → compute.run state = some (result, after) →
    after.scope.AllBound Holds ∧ Scope.Effect names here state.scope after.scope ∧ condition result

namespace Affects

variable {condition : First → Prop} {later : Second → Prop}

theorem pure {value : First} (holds : condition value) :
    Affects Holds names here (Pure.pure value) condition := by
  rintro state _ _ binds ⟨⟩
  exact ⟨binds, .refl _, holds⟩

theorem bind {first : Evaluation First} {next : First → Evaluation Second}
    (affects : Affects Holds names here first condition)
    (continues : ∀ value, condition value → Affects Holds names here (next value) later) :
    Affects Holds names here (first >>= next) later := by
  intro state result after binds runs
  rw [StateT.run_bind] at runs
  obtain ⟨⟨value, between⟩, firstRun, nextRun⟩ := Option.bind_eq_some_iff.mp runs
  obtain ⟨betweenBinds, firstEffect, holds⟩ := affects state value between binds firstRun
  obtain ⟨afterBinds, nextEffect, holdsLater⟩ :=
    continues value holds between result after betweenBinds nextRun
  exact ⟨afterBinds, firstEffect.trans nextEffect, holdsLater⟩

theorem ofTraced {computation : Traced First}
    (ensures : computation.Ensures (fun _ => True) condition) :
    Affects Holds names here (Evaluation.ofTraced computation) condition := by
  rintro state _ _ binds ⟨⟩
  exact ⟨binds, .refl _, ensures _ fun _ _ => trivial⟩

theorem ofMarking {compute : Marking First} (ensures : compute.Ensures condition) :
    Affects Holds names here (liftM compute) condition :=
  ofTraced (.ofMarking ensures)

theorem make {node : Expr} {condition : Expr → Prop}
    (holds : ∀ mark, condition (node.withMark mark)) :
    Affects Holds names here (liftM (Expr.make node)) condition :=
  ofMarking (.make holds)

theorem unfinished : Affects Holds names here Evaluation.unfinished condition :=
  fun _ _ _ _ runs => nomatch runs

theorem draw {count : Nat} : Affects Holds names here (Evaluation.draw count) fun _ => True := by
  rintro state _ _ binds ⟨⟩
  exact ⟨binds, .refl _, trivial⟩

theorem isStopped :
    Affects Holds names here (Evaluation.isStopped controller) fun _ => True := by
  rintro state _ _ binds ⟨⟩
  exact ⟨binds, .refl _, trivial⟩

theorem changeScope {change : Scope → Scope}
    (binds : ∀ {scope : Scope}, scope.AllBound Holds → (change scope).AllBound Holds)
    (effect : ∀ scope, Scope.Effect names here scope (change scope)) :
    Affects Holds names here (Evaluation.changeScope change) fun _ => True := by
  rintro state _ _ bound ⟨⟩
  exact ⟨binds bound, effect _, trivial⟩

theorem forEach {compute : Expr → Evaluation Expr} {condition : Expr → Prop} {list : List Expr}
    (affects : ∀ item ∈ list, Affects Holds names here (compute item) condition) :
    Affects Holds names here (Evaluation.forEach compute list)
      (∀ result ∈ ·, condition result) := by
  induction list with
  | nil => exact pure (List.forall_mem_nil _)
  | cons item list ih =>
      rw [List.forall_mem_cons] at affects
      exact bind affects.1 fun _ holds => bind (ih affects.2) fun _ rest =>
        pure (List.forall_mem_cons.mpr ⟨holds, rest⟩)

/-- Inside a frame of its own an evaluation may bind any name. -/
theorem inFrame {compute : Evaluation First}
    (affects : Affects Holds names Set.univ compute condition) :
    Affects Holds names here (Evaluation.inFrame compute) condition := by
  intro state result after binds runs
  have inside : (do
      let value ← compute
      Evaluation.changeScope fun scope => scope.pop?.getD scope
      Pure.pure value : Evaluation First).run { state with scope := state.scope.push } =
        some (result, after) := runs
  rw [StateT.run_bind] at inside
  obtain ⟨⟨value, between⟩, run, closes⟩ := Option.bind_eq_some_iff.mp inside
  obtain ⟨betweenBinds, effect, holds⟩ := affects _ value between binds.push run
  cases closes
  exact ⟨betweenBinds.pop, Scope.pop_effect effect, holds⟩

end Affects

end Evaluation

namespace Expr

open Evaluation (Affects)

variable {controller : Option Controller} {evaluate : Expr → Evaluation Expr} {fuel bound : Nat}
  {names here : Set String} {tree : Expr} {name : String}

/-- The evaluation affects what the trees assign that it is given, and yields dormant
values. -/
def Respects (loops : Bool) (evaluate : Expr → Evaluation Expr) : Prop :=
  ∀ {names here : Set String} {bound : Nat} {tree : Expr}, Confined loops names bound here tree →
    Affects (Dormant loops) names here (evaluate tree) (Dormant loops)

theorem dormant_composed (loops : Bool) : Composed true (Dormant loops) := Confined.composed

theorem Dormant.confined {loops : Bool} (dormant : tree.Dormant loops) :
    Confined loops names bound here tree :=
  dormant.mono (Set.empty_subset _) (Set.empty_subset _) (Nat.zero_le _)

variable {loops : Bool}

/-- A dormant value is looked up without any effect: what is evaluated outside its
frame leaves the outer frames as they were. -/
theorem resolve_affects (respects : Respects loops evaluate) {leaf : Expr}
    (dormant : leaf.Dormant loops) :
    Affects (Dormant loops) names here (resolve evaluate leaf name) (Dormant loops) := by
  intro state result after binds runs
  simp only [resolve, StateT.run_bind, StateT.run_get, Option.pure_def, Option.bind_eq_bind,
    Option.bind_some] at runs
  split at runs
  · cases runs
    exact ⟨binds, .refl _, dormant⟩
  · rename_i inner value outer found
    obtain ⟨frames, frame, member, binding, bound, rfl⟩ := Scope.split?_eq_some found
    have valueDormant : binding.2.Dormant loops :=
      binds frame (frames ▸ List.mem_append_left _ member) binding bound
    split at runs
    · cases runs
      exact ⟨binds, .refl _, valueDormant⟩
    · have outerBinds : (Scope.ofFrames outer).AllBound (Dormant loops) :=
        .ofFrames fun frame member => binds frame (frames ▸ List.mem_append_right _ member)
      have outside : (evaluate binding.2 >>= fun value => do
          Evaluation.changeScope fun scope =>
            if outer.isEmpty then state.scope else Scope.ofFrames (inner ++ scope.frames)
          pure value).run { state with scope := Scope.ofFrames outer } =
            some (result, after) := runs
      rw [StateT.run_bind] at outside
      obtain ⟨⟨value, between⟩, run, closes⟩ := Option.bind_eq_some_iff.mp outside
      obtain ⟨_, effect, holds⟩ := respects valueDormant _ value between outerBinds run
      cases closes
      dsimp only
      rw [effect.eq, Scope.ofFrames_append frames]
      exact ⟨binds, .refl _, holds⟩

/-! ## Functions -/

theorem ofReals_dormant {done : List Expr} (values : List Float)
    (hold : ∀ item ∈ done, item.Dormant loops) :
    (ofReals done values).Ensures (∀ item ∈ ·, item.Dormant loops) := by
  induction values generalizing done with
  | nil => exact .pure fun item member => hold item (List.mem_reverse.mp member)
  | cons value values ih =>
      exact .bind (.make fun _ => (dormant_composed loops).number) fun leaf holds =>
        ih (List.forall_mem_cons.mpr ⟨holds, hold⟩)

theorem drawRandomList_affects (length : Expr) (dormant : length.Dormant loops) :
    Affects (Dormant loops) names here (drawRandomList length) (Dormant loops) := by
  unfold drawRandomList
  split
  · split
    · refine .bind .draw fun drawn _ =>
        .bind (.ofMarking (ofReals_dormant drawn (List.forall_mem_nil _))) fun _ hold =>
          .make fun _ => (dormant_composed loops).array.mpr hold
    · exact .make fun _ => (dormant_composed loops).error
  · split
    · exact .make fun _ => (dormant_composed loops).error
    · exact .make fun _ => ((dormant_composed loops).call rfl).mpr dormant

theorem applyFunctionWith_affects {function : UnaryFunction} {value : Expr}
    (dormant : value.Dormant loops) :
    Affects (Dormant loops) names here (applyFunctionWith controller (.unary function) [value])
      (Dormant loops) := by
  unfold applyFunctionWith
  split
  · rename_i length same arguments
    cases arguments
    split
    · exact drawRandomList_affects _ dormant
    · exact .ofTraced ((dormant_composed loops).applyOne_keeps (Bool.or_true _) dormant)
  · exact .ofTraced ((dormant_composed loops).applyOne_keeps (Bool.or_true _) dormant)

/-! ## Derivatives and solutions -/

/-- The derivative that a derivative node asks for assigns where the node does, and
nothing when it only wraps the tree: then the tree resists differentiation. -/
theorem differentiate_ensures_confined {inner outer : Mark}
    (confined : Confined loops names bound here (.call₂ .diff tree (.var name inner) outer)) :
    (tree.differentiate name).Ensures (fun _ => True) fun derivative =>
      (∃ bound, Confined loops names bound here derivative) ∧
        (isUnresolvedDerivativeOf tree derivative = true → derivative.Dormant loops) := by
  cases confined with
  | leaf isLeaf => cases isLeaf
  | plain isPlain => cases isPlain
  | derivative treeConfined =>
      exact (Confined.differentiate_confined treeConfined.tighten).mono
        fun derivative kept => ⟨⟨_, kept⟩, kept.of_isUnresolvedDerivativeOf⟩
  | unresolved resists =>
      refine (differentiate_resists (resists name rfl)).mono ?_
      rintro _ ⟨inner, outer, rfl⟩
      have dormant : (Expr.call₂ .diff tree (.var name inner) outer).Dormant loops :=
        .unresolved (by rintro _ ⟨⟩; exact resists name rfl)
      exact ⟨⟨0, dormant.confined⟩, fun _ => dormant⟩

theorem evaluateDerivative_affects (respects : Respects loops evaluate) {second : Expr}
    {mark : Mark} (confined : Confined loops names bound here (.call₂ .diff tree second mark)) :
    Affects (Dormant loops) names here (evaluateDerivative evaluate tree second)
      (Dormant loops) := by
  cases second with
  | var name inner =>
      refine .bind (.ofTraced (differentiate_ensures_confined confined)) ?_
      rintro derivative ⟨⟨_, kept⟩, wraps⟩
      split
      · exact .pure (wraps ‹_›)
      · exact respects kept
  | _ => exact .make fun _ => (dormant_composed loops).error

theorem evaluateSolution_affects (respects : Respects loops evaluate) {equation unknown : Expr}
    (confined : Confined loops names bound Set.univ equation) :
    Affects (Dormant loops) names here (evaluateSolution evaluate equation unknown)
      (Dormant loops) := by
  unfold evaluateSolution
  split
  · rename_i name mark
    have evaluated : Affects (Dormant loops) names here (Evaluation.inFrame do
        Evaluation.changeScope fun scope => scope.bind name (.var name mark)
        evaluate equation) (Dormant loops) := by
      refine .inFrame (.bind (.changeScope ?_ ?_) fun _ _ => respects confined)
      · exact fun binds => binds.bind (.leaf rfl)
      · exact Scope.bind_effect trivial
    refine .bind evaluated fun value dormant => .ofTraced ?_
    refine (dormant_composed loops).solve_keeps (fun holds => .solution ?_) dormant
    exact Dormant.confined holds
  · exact .make fun _ => (dormant_composed loops).error

/-! ## Conditionals and loops -/

theorem evaluateConditional_affects (respects : Respects loops evaluate)
    {test consequence alternative : Expr} (testConfined : Confined loops names bound here test)
    (first : Confined loops names bound here consequence)
    (second : Confined loops names bound here alternative) :
    Affects (Dormant loops) names here
      (evaluateConditional evaluate test consequence alternative) (Dormant loops) := by
  refine .bind (respects testConfined) fun decision dormant => ?_
  split
  · exact respects first
  · exact respects second
  · split
    · exact .pure dormant
    · split
      · exact .make fun _ => (dormant_composed loops).error
      · exact .bind (respects first) fun _ firstDormant =>
          .bind (respects second) fun _ secondDormant => .make fun _ =>
            (dormant_composed loops).conditional.mpr ⟨dormant, firstDormant, secondDormant⟩

/-- Each round of a loop has the effect of its parts. -/
theorem runLoop_affects (respects : Respects loops evaluate) {test body last : Expr}
    {step : Option Expr} (testConfined : Confined loops names bound here test)
    (bodyConfined : Confined loops names bound here body)
    (stepConfined : ∀ advance, step = some advance → Confined loops names bound here advance)
    (rounds : Nat) (dormant : last.Dormant loops) :
    Affects (Dormant loops) names here (runLoop controller evaluate test body step rounds last)
      (Dormant loops) := by
  induction rounds generalizing last with
  | zero => exact .unfinished
  | succ rounds ih =>
      unfold runLoop
      refine .bind .isStopped fun stopped _ => ?_
      split
      · exact .bind (.ofTraced .step) fun _ _ => .make fun _ => (dormant_composed loops).error
      refine .bind (respects testConfined) fun decision decisionDormant => ?_
      split
      · exact .pure dormant
      · split
        · exact .pure decisionDormant
        · exact .make fun _ => (dormant_composed loops).error
      refine .bind (respects bodyConfined) fun value valueDormant => ?_
      split
      · exact .pure valueDormant
      split
      · exact ih valueDormant
      · refine .bind (respects (stepConfined _ rfl)) fun advanced advancedDormant => ?_
        split
        · exact .pure advancedDormant
        · exact ih valueDormant

theorem startLoop_affects (respects : Respects loops evaluate) {test body : Expr}
    {step : Option Expr} (testConfined : Confined loops names bound here test)
    (bodyConfined : Confined loops names bound here body)
    (stepConfined : ∀ advance, step = some advance → Confined loops names bound here advance) :
    Affects (Dormant loops) names here (startLoop controller evaluate test body step fuel)
      (Dormant loops) :=
  .bind (.make fun _ => (dormant_composed loops).number) fun _ undefined =>
    runLoop_affects respects testConfined bodyConfined stepConfined fuel undefined

theorem sumTerms_affects (respects : Respects loops evaluate) {body total : Expr}
    (confined : Confined loops names bound Set.univ body) (count : Nat) (index : Int)
    (dormant : total.Dormant loops) :
    Affects (Dormant loops) names Set.univ
      (sumTerms controller evaluate name body count index total) (Dormant loops) := by
  induction count generalizing index total with
  | zero => exact .pure dormant
  | succ count ih =>
      unfold sumTerms
      refine .bind .isStopped fun stopped _ => ?_
      split
      · exact .bind (.ofTraced .step) fun _ _ => .make fun _ => (dormant_composed loops).error
      refine .bind (.make fun _ => (dormant_composed loops).number) fun value valueDormant => ?_
      refine .bind (.changeScope ?_ ?_) fun _ _ => .bind (respects confined)
        fun term termDormant => ?_
      · exact fun binds => binds.bind valueDormant
      · exact Scope.bind_effect trivial
      refine .bind (.ofTraced ((dormant_composed loops).arithmetic_keeps dormant termDormant))
        fun next nextDormant => ?_
      split
      · exact .pure nextDormant
      · exact ih (index + 1) nextDormant

theorem evaluateSum_affects (respects : Respects loops evaluate) {body index first last : Expr}
    (bodyConfined : Confined loops names bound Set.univ body)
    (firstConfined : Confined loops names bound here first)
    (lastConfined : Confined loops names bound here last) :
    Affects (Dormant loops) names here (evaluateSum controller evaluate body index first last)
      (Dormant loops) := by
  unfold evaluateSum
  split
  · exact .make fun _ => (dormant_composed loops).error
  refine .bind (respects firstConfined) fun lower lowerDormant =>
    .bind (respects lastConfined) fun upper upperDormant => ?_
  split
  · exact .pure ((dormant_composed loops).of_firstError? ‹_›)
  · exact .inFrame (sumTerms_affects respects bodyConfined _ _ (dormant_composed loops).number)
  · exact .make fun _ => (dormant_composed loops).error

theorem evaluateFor_affects (respects : Respects loops evaluate) {start test step body : Expr}
    (parts : ∀ part ∈ [start, test, step, body], Confined loops names bound Set.univ part) :
    Affects (Dormant loops) names here
      (evaluateFor controller fuel evaluate start test step body) (Dormant loops) := by
  refine .inFrame (.bind (respects (parts start (by simp))) fun started dormant => ?_)
  split
  · exact .pure dormant
  · refine startLoop_affects respects (parts test (by simp)) (parts body (by simp)) ?_
    rintro advance ⟨⟩
    exact parts step (by simp)

/-! ## Evaluation -/

/-- A loop that is not permitted stays as it is and is never reached. -/
theorem guardLoop_affects {construct : Construct} {node : Expr} {loop : Evaluation Expr}
    (refused : loopsAllowed controller = false → node.Dormant (loopsAllowed controller))
    (allowed : loopsAllowed controller = true →
      Affects (Dormant (loopsAllowed controller)) names here loop
        (Dormant (loopsAllowed controller))) :
    Affects (Dormant (loopsAllowed controller)) names here
      (guardLoop controller construct node loop) (Dormant (loopsAllowed controller)) := by
  unfold guardLoop
  split
  · exact allowed ‹_›
  · rename_i notAllowed
    exact .bind (.ofTraced .step) fun _ _ => .pure (refused (by simpa using notAllowed))

theorem evaluateNode_affects (respects : Respects (loopsAllowed controller) evaluate)
    (confined : Confined (loopsAllowed controller) names bound here tree) :
    Affects (Dormant (loopsAllowed controller)) names here
      (evaluateNode controller fuel evaluate tree) (Dormant (loopsAllowed controller)) := by
  have composed := dormant_composed (loopsAllowed controller)
  cases confined with
  | leaf isLeaf =>
      cases tree with
      | var name mark => exact resolve_affects respects (.leaf rfl)
      | number | bool | char | text | error => exact .pure (.leaf rfl)
      | _ => cases isLeaf
  | plain isPlain parts =>
      cases tree with
      | array items mark =>
          exact .bind (.forEach fun item member => respects (parts item member)) fun _ hold =>
            .make fun _ => composed.array.mpr hold
      | unary op operand mark =>
          have evaluated := respects (parts operand (by simp [children]))
          cases op with
          | neg => exact .bind evaluated fun _ dormant => .ofTraced (composed.neg_keeps dormant)
          | not =>
              exact .bind evaluated fun _ dormant =>
                .ofMarking (composed.negation_keeps dormant)
      | arith op left right mark =>
          exact .bind (respects (parts left (by simp [children]))) fun _ first =>
            .bind (respects (parts right (by simp [children]))) fun _ second =>
              .ofTraced (composed.arithmetic_keeps first second)
      | relation comparison left right mark =>
          exact .bind (respects (parts left (by simp [children]))) fun _ first =>
            .bind (respects (parts right (by simp [children]))) fun _ second =>
              .ofMarking (composed.compareBy_keeps first second)
      | connective link left right mark =>
          refine .bind (respects (parts left (by simp [children]))) fun value first => ?_
          split
          · exact .pure first
          · exact .bind (respects (parts right (by simp [children]))) fun _ second =>
              .ofMarking (composed.connect_keeps first second)
      | call function argument mark =>
          exact .bind (respects (parts argument (by simp [children]))) fun _ dormant =>
            applyFunctionWith_affects dormant
      | call₂ function first second mark =>
          cases function with
          | max | min =>
              exact .bind (respects (parts first (by simp [children]))) fun _ left =>
                .bind (respects (parts second (by simp [children]))) fun _ right =>
                  .ofTraced (composed.applyTwo_keeps (fun _ => rfl) left right)
          | diff | solve => cases isPlain
      | conditional test consequence alternative mark =>
          exact evaluateConditional_affects respects (parts test (by simp [children]))
            (parts consequence (by simp [children])) (parts alternative (by simp [children]))
      | pause seconds mark =>
          exact .bind (respects (parts seconds (by simp [children]))) fun _ dormant =>
            .bind .isStopped fun _ _ => .ofTraced (composed.pauseFor_keeps dormant)
      | _ => cases isPlain
  | assignment isName isHere valueConfined =>
      refine .bind (respects valueConfined) fun result dormant =>
        .bind (.changeScope ?_ (Scope.assign_effect isName isHere)) fun _ _ => .pure dormant
      exact fun binds => binds.assign dormant
  | misassignment notVar =>
      rename_i target value mark
      cases target with
      | var => cases notVar
      | _ => exact .make fun _ => composed.error
  | whileLoop testConfined bodyConfined =>
      refine guardLoop_affects (fun refused => ?_) fun allowed => ?_
      · exact .whileLoop (by simp [refused]) (by simp [refused])
      · refine startLoop_affects respects (testConfined allowed) (bodyConfined allowed) ?_
        intro advance impossible
        cases impossible
  | forLoop parts =>
      refine guardLoop_affects (fun refused => ?_) fun allowed => ?_
      · exact .forLoop (by simp [refused])
      · exact evaluateFor_affects respects (parts allowed)
  | summation bodyConfined limits =>
      refine guardLoop_affects (fun refused => ?_) fun allowed => ?_
      · exact .summation (by simp [refused]) (by simp [refused])
      · exact evaluateSum_affects respects (bodyConfined allowed) (limits allowed _ (by simp))
          (limits allowed _ (by simp))
  | solution equationConfined => exact evaluateSolution_affects respects equationConfined
  | @derivative _ _ second mark treeConfined smaller =>
      have kept :
          Confined (loopsAllowed controller) names bound here (.call₂ .diff _ second mark) :=
        .derivative treeConfined smaller
      exact evaluateDerivative_affects respects kept
  | @unresolved _ _ second mark resists =>
      have kept :
          Confined (loopsAllowed controller) names bound here (.call₂ .diff _ second mark) :=
        .unresolved resists
      exact evaluateDerivative_affects respects kept

theorem evaluateTo_respects (controller : Option Controller) (fuel : Nat) :
    Respects (loopsAllowed controller) (evaluateTo controller fuel) := by
  induction fuel with
  | zero => exact fun _ => .unfinished
  | succ fuel ih => exact fun confined => evaluateNode_affects ih confined

/-- In a scope of constants an evaluation changes no binding, in any frame, of a name
that the tree does not assign.  The frames around the current one keep their names,
and the current one keeps its own and gains only names that the tree assigns outside
of `for` loops, solutions and the bodies of sums. -/
theorem evaluation_writes_only_assigned_names (tree : Expr) (controller : Option Controller)
    (scope : Scope) (constant : scope.AllBound (·.isConstant = true)) (fuel : Nat)
    (random : RandomSource) (marks : Nat) (result : Expr) (state : EvalState)
    (returns : evaluate? fuel controller scope random marks tree = some (result, state)) :
    (∀ name, name ∉ tree.assignedNames →
        state.scope.frames.map (·.lookup? name) = scope.frames.map (·.lookup? name)) ∧
      state.scope.enclosing.map (·.map Prod.fst) = scope.enclosing.map (·.map Prod.fst) ∧
      ∃ added, state.scope.current.map Prod.fst = scope.current.map Prod.fst ++ added ∧
        added ⊆ tree.assignedHere := by
  have confined : Confined (loopsAllowed controller) {name | name ∈ tree.assignedNames} tree.size
      {name | name ∈ tree.assignedHere} tree := .of_assigned le_rfl (fun _ => id) fun _ => id
  have dormant : scope.AllBound (Dormant (loopsAllowed controller)) := by
    intro frame member binding bound
    refine .leaf ?_
    have isConstant := constant frame member binding bound
    cases value : binding.2 <;> first | rfl | (rw [value] at isConstant; cases isConstant)
  obtain ⟨-, effect, -⟩ := evaluateTo_respects controller fuel confined (.start scope random marks)
    result state dormant returns
  refine ⟨fun name unassigned => ?_, effect.enclosing_names, effect.current.map_fst⟩
  exact effect.lookup? (fun _ here => assignedHere_subset_assignedNames here) unassigned

/-- Assigns to `y` the value of a loop that counts `i` to two and adds to `x`. -/
def countingLoop : Expr :=
  .assignment (.var "y") (.forLoop (.assignment (.var "i") (.int 0))
    (.relation .less (.var "i") (.int 2))
    (.assignment (.var "i") (.arith .add (.var "i") (.int 1)))
    (.assignment (.var "x") (.arith .add (.var "x") (.var "i"))))

/-- The counter `i` leaves no trace, `y` is new in the current frame, `x` is found and
overwritten in the frame around it, and `z` keeps its value. -/
theorem countingLoop_writes_only_assigned_names :
    let scope : Scope := ⟨[], [[("x", .int 5), ("z", .int 7)]]⟩
    scope.AllBound (·.isConstant = true) ∧ ∃ result state,
      evaluate? 40 (some .permissive) scope (.ofSeed 0) 0 countingLoop = some (result, state) ∧
        state.scope.frames.map (·.lookup? "z") = [none, some (.int 7)] ∧
        state.scope.enclosing.map (·.map Prod.fst) = [["x", "z"]] ∧
        ∃ added, state.scope.current.map Prod.fst = added ∧ added ⊆ ["y"] := by
  intro scope
  have constant : scope.AllBound (·.isConstant = true) := by decide
  have returns :
      (evaluate? 40 (some .permissive) scope (.ofSeed 0) 0 countingLoop).isSome = true := by
    decide +kernel
  obtain ⟨⟨result, state⟩, run⟩ := Option.isSome_iff_exists.mp returns
  obtain ⟨unchanged, names, added, gains, within⟩ :=
    evaluation_writes_only_assigned_names countingLoop _ scope constant 40 (.ofSeed 0) 0 result
      state run
  exact ⟨constant, result, state, run, unchanged "z" (by decide +kernel), names, added, gains,
    within⟩

/-- A loop without an end that is told to stop at its third look has run two rounds. -/
example :
    let controller := Controller.permissive.withSignals fun looks => decide (2 ≤ looks)
    let count : Expr := .assignment (.var "i") (.arith .add (.var "i") (.int 1))
    (evaluate? 20 (some controller) ⟨[("i", .int 0)], []⟩ (.ofSeed 0) 0
        (.whileLoop (.bool true) count)).map
      (fun run => (run.1.faultKind?, (run.2.scope.lookup? "i").bind asInt?)) =
        some (some .cancelled, some 2) := by
  decide +kernel

end Expr

end SymbolicAlgebra
