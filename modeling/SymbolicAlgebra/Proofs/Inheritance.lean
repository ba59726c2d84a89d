import SymbolicAlgebra.Proofs.Soundness.Engine

/-!
# Properties that arithmetic hands on

Arithmetic builds its results from parts of the operands, from numbers that it
computes and from new nodes of operators over such trees.  A property that holds
of a node exactly when it holds of the operands, and that computed numbers have,
is therefore inherited by every result.

There is one statement for each rule and for each pass of collection, and the
engine inherits the property at every depth.
-/

namespace SymbolicAlgebra

/-- A property that the results of arithmetic have when the operands have it, in
runs that take only allowed steps.  Arrays, texts and the errors about them are
asked for only when an operand is an array or a text. -/
structure Inherited (allowed : Step → Prop) (Holds : Expr → Prop) : Prop where
  arith : ∀ {op : ArithOp} {left right : Expr} {mark : Mark},
    Holds (.arith op left right mark) ↔ Holds left ∧ Holds right
  neg : ∀ {operand : Expr} {mark : Mark}, Holds (.unary .neg operand mark) ↔ Holds operand
  tangent : ∀ {argument : Expr} {inner outer : Mark}, Holds (.call .sin argument inner) →
    Holds (.call .tan argument outer)
  int : ∀ value : Int, Holds (.int value)
  numeric : ∀ {operands : List Number} {result : Number},
    (∀ operand ∈ operands, ∃ mark, Holds (.number operand mark)) →
      (operands.all Number.isExact = true → result.isExact = false → allowed (.inexact result)) →
        ∀ mark, Holds (.number result mark)
  undefined : ∀ {op : ArithOp} {x y : Number}, allowed (.undefined op x y) →
    ∀ mark, Holds (.number (op.onNumbers x y) mark)
  items : ∀ {items : List Expr} {mark : Mark}, Holds (.array items mark) →
    ∀ item ∈ items, Holds item
  array : ∀ {items results : List Expr} {inner outer : Mark}, Holds (.array items inner) →
    (∀ result ∈ results, Holds result) → Holds (.array results outer)
  text : ∀ {x y : String} {inner : Mark}, Holds (.text x inner) → ∀ mark, Holds (.text y mark)
  fault : ∀ {tree : Expr} {fault : Fault}, Holds tree →
    (tree.asArray?.isSome || tree.isTextual) = true → ∀ mark, Holds (.error fault mark)

/-- The results have the property when the operands do. -/
structure Kernel.Keeps (allowed : Step → Prop) (Holds : Expr → Prop) (kernel : Kernel) : Prop where
  binary : ∀ {op : ArithOp} {left right : Expr}, Holds left → Holds right →
    (kernel.binary op left right).Ensures allowed Holds
  negate : ∀ {operand : Expr}, Holds operand → (kernel.negate operand).Ensures allowed Holds

namespace Inherited

variable {allowed : Step → Prop} {Holds : Expr → Prop} {kernel : Kernel}

/-! ## Structural rules -/

section Structural

variable {op : ArithOp} {left right tree : Expr}

theorem number (inherited : Inherited allowed Holds) {number : Number} (holds : Holds tree)
    (view : tree.toNumber? = some number) : ∃ mark, Holds (.number number mark) := by
  cases tree with
  | number value mark =>
      obtain rfl := Option.some.inj view
      exact ⟨mark, holds⟩
  | bool value mark =>
      obtain rfl := Option.some.inj view
      exact ⟨_, inherited.int _⟩
  | _ => contradiction

theorem of_asNumber? {number : Number} (holds : Holds tree)
    (view : tree.asNumber? = some number) : ∃ mark, Holds (.number number mark) := by
  obtain ⟨mark, rfl⟩ := Expr.eq_of_asNumber? view
  exact ⟨mark, holds⟩

theorem computed (inherited : Inherited allowed Holds) {operands : List Number} {result : Number}
    (holds : ∀ operand ∈ operands, ∃ mark, Holds (.number operand mark)) :
    (Traced.numeric operands result).Ensures allowed Holds :=
  .numeric fun noted => inherited.numeric holds noted

theorem negateNumber_keeps (inherited : Inherited allowed Holds) {number : Number}
    (holds : ∃ mark, Holds (.number number mark)) :
    (negateNumber number).Ensures allowed Holds :=
  inherited.computed (List.forall_mem_singleton.mpr holds)

theorem numericRule_keeps (inherited : Inherited allowed Holds) (leftHolds : Holds left)
    (rightHolds : Holds right) : (numericRule op left right).Ensures allowed Holds := by
  unfold numericRule
  split
  · rename_i x y leftView rightView
    split
    · exact .bind (.lift .step) fun _ admitted => .lift (.make (inherited.undefined admitted))
    · exact .lift (inherited.computed (List.forall_mem_cons.mpr
        ⟨inherited.number leftHolds leftView,
          List.forall_mem_singleton.mpr (inherited.number rightHolds rightView)⟩))
  · exact .failure

theorem arrayRule_keeps (inherited : Inherited allowed Holds) (keeps : kernel.Keeps allowed Holds)
    (leftHolds : Holds left) (rightHolds : Holds right) :
    (arrayRule kernel op left right).Ensures allowed Holds := by
  unfold arrayRule
  split
  · rename_i lefts rights leftView rightView
    obtain ⟨inner, rfl⟩ := Expr.eq_of_asArray? leftView
    obtain ⟨outer, rfl⟩ := Expr.eq_of_asArray? rightView
    split
    · exact .failure
    · unfold elementwise
      split
      · exact .lift (.make (inherited.fault leftHolds rfl))
      · refine .lift (.bind (.forEach fun pair member => ?_) fun results hold =>
          .make fun mark => inherited.array leftHolds hold)
        exact keeps.binary (inherited.items leftHolds _ (List.of_mem_zip member).1)
          (inherited.items rightHolds _ (List.of_mem_zip member).2)
  · rename_i lefts leftView rightView
    obtain ⟨inner, rfl⟩ := Expr.eq_of_asArray? leftView
    have spread : ((do
        let results ← Traced.forEach (fun item => kernel.binary op item right) lefts
        Expr.make (.array results) : Rule Expr)).Ensures allowed Holds :=
      .bind (.lift (.forEach fun item member =>
        keeps.binary (inherited.items leftHolds item member) rightHolds)) fun results hold =>
          .lift (.make fun mark => inherited.array leftHolds hold)
    cases op with
    | mul => exact spread
    | div => exact spread
    | pow => exact spread
    | add | sub =>
        dsimp only
        split
        · exact .lift (.make (inherited.fault leftHolds rfl))
        · exact .failure
  · rename_i rights leftView rightView
    obtain ⟨outer, rfl⟩ := Expr.eq_of_asArray? rightView
    have spread : ((do
        let results ← Traced.forEach (fun item => kernel.binary op left item) rights
        Expr.make (.array results) : Rule Expr)).Ensures allowed Holds :=
      .bind (.lift (.forEach fun item member =>
        keeps.binary leftHolds (inherited.items rightHolds item member))) fun results hold =>
          .lift (.make fun mark => inherited.array rightHolds hold)
    cases op with
    | mul => exact spread
    | div => exact spread
    | pow => exact .failure
    | add | sub =>
        dsimp only
        split
        · exact .lift (.make (inherited.fault rightHolds rfl))
        · exact .failure
  · exact .failure

theorem textRule_keeps (inherited : Inherited allowed Holds) {op : Operator}
    (leftHolds : Holds left) (rightHolds : Holds right) :
    (textRule op left right).Ensures allowed Holds := by
  unfold textRule
  split
  · exact .lift (.make (inherited.text leftHolds))
  · split
    · rename_i textual
      simp only [Bool.and_eq_true, Bool.or_eq_true] at textual
      refine .lift (.make ?_)
      rcases textual.1.1 with isTextual | isTextual
      · exact inherited.fault leftHolds (by rw [isTextual, Bool.or_true])
      · exact inherited.fault rightHolds (by rw [isTextual, Bool.or_true])
    · exact .failure

theorem firstError?_keeps (leftHolds : Holds left) (rightHolds : Holds right) :
    (Rule.ofOption (firstError? left right)).Ensures allowed Holds := by
  refine .ofOption fun fault found => ?_
  obtain ⟨-, rfl | rfl⟩ := firstError?_eq_some found
  · exact leftHolds
  · exact rightHolds

end Structural

/-! ## Identities -/

section Identities

variable {left right tree base exponent : Expr}

theorem splitCoefficient_keeps (inherited : Inherited allowed Holds) (holds : Holds tree) :
    (splitCoefficient tree).Ensures fun split =>
      (∃ mark, Holds (.number split.1 mark)) ∧ Holds split.2 := by
  fun_induction splitCoefficient tree with
  | case1 left right mark coefficient view =>
      exact .pure ⟨of_asNumber? (inherited.arith.mp holds).1 view, (inherited.arith.mp holds).2⟩
  | case2 left right mark coefficient view =>
      exact .pure ⟨of_asNumber? (inherited.arith.mp holds).2 view, (inherited.arith.mp holds).1⟩
  | case3 left right mark _ _ ih =>
      have ⟨leftHolds, rightHolds⟩ := inherited.arith.mp holds
      refine .bind (ih leftHolds) ?_
      rintro ⟨coefficient, rest⟩ ⟨coefficientHolds, restHolds⟩
      dsimp only
      split
      · exact .pure ⟨⟨_, inherited.int 1⟩, holds⟩
      · exact .bind (.make fun mark => inherited.arith.mpr ⟨restHolds, rightHolds⟩)
          fun _ product => .pure ⟨coefficientHolds, product⟩
  | case4 => exact .pure ⟨⟨_, inherited.int 1⟩, holds⟩

theorem likeTerms_keeps (inherited : Inherited allowed Holds) (keeps : kernel.Keeps allowed Holds)
    {subtract : Bool} (leftHolds : Holds left) (rightHolds : Holds right) :
    (likeTerms kernel subtract left right).Ensures allowed Holds := by
  refine .bind (.lift (.ofMarking (inherited.splitCoefficient_keeps leftHolds))) ?_
  rintro ⟨leftCoefficient, leftRest⟩ ⟨leftNumber, leftRestHolds⟩
  refine .bind (.lift (.ofMarking (inherited.splitCoefficient_keeps rightHolds))) ?_
  rintro ⟨rightCoefficient, rightRest⟩ ⟨rightNumber, _⟩
  dsimp only
  split
  · exact .failure
  · have numbers : ∀ number ∈ [leftCoefficient, rightCoefficient],
        ∃ mark, Holds (.number number mark) :=
      List.forall_mem_cons.mpr ⟨leftNumber, List.forall_mem_singleton.mpr rightNumber⟩
    exact .bind (.lift (inherited.computed numbers)) fun _ coefficientHolds =>
      .lift (keeps.binary coefficientHolds leftRestHolds)

theorem negated_keeps (inherited : Inherited allowed Holds) (keeps : kernel.Keeps allowed Holds)
    (holds : Holds tree) : (negated kernel tree).Ensures allowed Holds := by
  fun_induction negated kernel tree with
  | case1 value mark _ => exact .lift (inherited.negateNumber_keeps ⟨mark, holds⟩)
  | case2 => exact .failure
  | case3 operand mark => exact .pure (inherited.neg.mp holds)
  | case4 left right mark ih =>
      have ⟨leftHolds, rightHolds⟩ := inherited.arith.mp holds
      refine .orElse ?_ ?_
      · exact .bind .guarded fun _ _ => .bind (ih leftHolds) fun _ positive =>
          .lift (keeps.binary positive rightHolds)
      · split
        · exact .lift (keeps.binary leftHolds (inherited.neg.mp rightHolds))
        · exact .failure
  | case5 left right mark ih =>
      have ⟨leftHolds, rightHolds⟩ := inherited.arith.mp holds
      exact .bind .guarded fun _ _ => .bind (ih leftHolds) fun _ positive =>
        .lift (keeps.binary positive rightHolds)
  | case6 => exact .failure

theorem negateLeadingFactor_keeps (inherited : Inherited allowed Holds)
    (keeps : kernel.Keeps allowed Holds) (holds : Holds tree) :
    (negateLeadingFactor kernel tree).Ensures allowed Holds := by
  fun_induction negateLeadingFactor kernel tree with
  | case1 left right mark ih | case2 left right mark ih =>
      have ⟨leftHolds, rightHolds⟩ := inherited.arith.mp holds
      exact .bind (ih leftHolds) fun _ negative =>
        .make fun mark => inherited.arith.mpr ⟨negative, rightHolds⟩
  | case3 => exact keeps.negate holds

theorem addIdentities_keeps (inherited : Inherited allowed Holds)
    (keeps : kernel.Keeps allowed Holds) (leftHolds : Holds left) (rightHolds : Holds right) :
    (addIdentities kernel left right).Ensures allowed Holds := by
  unfold addIdentities
  split
  · exact .pure rightHolds
  split
  · exact .pure leftHolds
  · refine .orElse (inherited.likeTerms_keeps keeps leftHolds rightHolds) (.orElse ?_ ?_)
    · exact .bind (inherited.negated_keeps keeps rightHolds) fun _ positive =>
        .lift (keeps.binary leftHolds positive)
    · exact .bind (inherited.negated_keeps keeps leftHolds) fun _ positive =>
        .lift (keeps.binary rightHolds positive)

theorem subIdentities_keeps (inherited : Inherited allowed Holds)
    (keeps : kernel.Keeps allowed Holds) (leftHolds : Holds left) (rightHolds : Holds right) :
    (subIdentities kernel left right).Ensures allowed Holds := by
  unfold subIdentities
  split
  · exact .pure leftHolds
  split
  · exact .lift (keeps.negate rightHolds)
  split
  · exact .pure (inherited.int 0)
  · refine .orElse (inherited.likeTerms_keeps keeps leftHolds rightHolds) ?_
    exact .bind (inherited.negated_keeps keeps rightHolds) fun _ positive =>
      .lift (keeps.binary leftHolds positive)

/-- An operation whose result takes a minus sign. -/
theorem signed_keeps (inherited : Inherited allowed Holds) (keeps : kernel.Keeps allowed Holds)
    {op : ArithOp} (leftHolds : Holds left) (rightHolds : Holds right) :
    (do
      let result ← kernel.binary op left right
      negateLeadingFactor kernel result : Rule Expr).Ensures allowed Holds :=
  .bind (.lift (keeps.binary leftHolds rightHolds)) fun _ result =>
    .lift (inherited.negateLeadingFactor_keeps keeps result)

theorem mulSigns_keeps (inherited : Inherited allowed Holds) (keeps : kernel.Keeps allowed Holds)
    (leftHolds : Holds left) (rightHolds : Holds right) :
    (mulSigns kernel left right).Ensures allowed Holds := by
  unfold mulSigns
  split
  · exact .bind (.lift (inherited.negateNumber_keeps ⟨_, leftHolds⟩)) fun _ flipped =>
      .lift (keeps.binary flipped (inherited.neg.mp rightHolds))
  · exact .lift (keeps.binary (inherited.neg.mp leftHolds) (inherited.neg.mp rightHolds))
  · split
    · exact .failure
    · exact inherited.signed_keeps keeps (inherited.neg.mp leftHolds) rightHolds
  · exact inherited.signed_keeps keeps leftHolds (inherited.neg.mp rightHolds)
  · exact .failure

theorem baseExponent_keeps (inherited : Inherited allowed Holds) (holds : Holds tree) :
    Holds (baseExponent tree).1 ∧ Holds (baseExponent tree).2 := by
  unfold baseExponent
  split
  · exact inherited.arith.mp holds
  · exact ⟨holds, inherited.int 1⟩

theorem mulPowers_keeps (inherited : Inherited allowed Holds) (keeps : kernel.Keeps allowed Holds)
    (leftHolds : Holds left) (rightHolds : Holds right) :
    (mulPowers kernel left right).Ensures allowed Holds := by
  have ⟨baseHolds, leftExponent⟩ := inherited.baseExponent_keeps leftHolds
  have ⟨_, rightExponent⟩ := inherited.baseExponent_keeps rightHolds
  unfold mulPowers
  dsimp only
  split
  · exact .failure
  · exact .bind (.lift (keeps.binary leftExponent rightExponent)) fun _ exponentHolds =>
      .lift (keeps.binary baseHolds exponentHolds)

theorem mulIdentities_keeps (inherited : Inherited allowed Holds)
    (keeps : kernel.Keeps allowed Holds) (leftHolds : Holds left) (rightHolds : Holds right) :
    (mulIdentities kernel left right).Ensures allowed Holds := by
  unfold mulIdentities
  split
  · exact .pure leftHolds
  split
  · exact .pure rightHolds
  split
  · exact .pure rightHolds
  split
  · exact .pure leftHolds
  split
  · exact .lift (keeps.negate rightHolds)
  split
  · exact .lift (keeps.negate leftHolds)
  · exact .orElse (inherited.mulSigns_keeps keeps leftHolds rightHolds)
      (inherited.mulPowers_keeps keeps leftHolds rightHolds)

theorem tangentRule_keeps (inherited : Inherited allowed Holds) (leftHolds : Holds left) :
    (tangentRule left right).Ensures allowed Holds := by
  unfold tangentRule
  split
  · split
    · exact .lift (.make fun _ => inherited.tangent leftHolds)
    · exact .failure
  · exact .failure

theorem divSigns_keeps (inherited : Inherited allowed Holds) (keeps : kernel.Keeps allowed Holds)
    (leftHolds : Holds left) (rightHolds : Holds right) :
    (divSigns kernel left right).Ensures allowed Holds := by
  unfold divSigns
  split
  · exact .lift (keeps.binary (inherited.neg.mp leftHolds) (inherited.neg.mp rightHolds))
  · exact inherited.signed_keeps keeps (inherited.neg.mp leftHolds) rightHolds
  · exact inherited.signed_keeps keeps leftHolds (inherited.neg.mp rightHolds)
  · exact .failure

theorem divPowers_keeps (inherited : Inherited allowed Holds) (keeps : kernel.Keeps allowed Holds)
    (leftHolds : Holds left) (rightHolds : Holds right) :
    (divPowers kernel left right).Ensures allowed Holds := by
  have ⟨baseHolds, leftExponent⟩ := inherited.baseExponent_keeps leftHolds
  have ⟨_, rightExponent⟩ := inherited.baseExponent_keeps rightHolds
  unfold divPowers
  dsimp only
  split
  · exact .failure
  · refine .bind (.lift (keeps.binary leftExponent rightExponent)) fun _ exponentHolds => ?_
    split
    · exact .bind (.lift (keeps.negate exponentHolds)) fun _ positive =>
        .bind (.lift (keeps.binary baseHolds positive)) fun _ power =>
          .lift (keeps.binary (inherited.int 1) power)
    · exact .lift (keeps.binary baseHolds exponentHolds)

theorem divIdentities_keeps (inherited : Inherited allowed Holds)
    (keeps : kernel.Keeps allowed Holds) (leftHolds : Holds left) (rightHolds : Holds right) :
    (divIdentities kernel left right).Ensures allowed Holds := by
  unfold divIdentities
  split
  · exact .pure leftHolds
  split
  · exact .lift (keeps.negate leftHolds)
  split
  · exact .pure leftHolds
  split
  · exact .pure (inherited.int 1)
  · exact .orElse (inherited.tangentRule_keeps leftHolds)
      (.orElse (inherited.divSigns_keeps keeps leftHolds rightHolds)
        (inherited.divPowers_keeps keeps leftHolds rightHolds))

theorem powOfNode_keeps (inherited : Inherited allowed Holds) (keeps : kernel.Keeps allowed Holds)
    (baseHolds : Holds base) (exponentHolds : Holds exponent) :
    (powOfNode kernel base exponent).Ensures allowed Holds := by
  unfold powOfNode
  split
  · have ⟨innerHolds, innerExponent⟩ := inherited.arith.mp baseHolds
    exact .bind .guarded fun _ _ => .bind (.lift (keeps.binary innerExponent exponentHolds))
      fun _ product => .lift (keeps.binary innerHolds product)
  · refine .bind (.lift (keeps.binary (inherited.neg.mp baseHolds) exponentHolds))
      fun _ magnitude => ?_
    split
    · exact .pure magnitude
    · exact .lift (keeps.negate magnitude)
  · exact .failure

theorem powIdentities_keeps (inherited : Inherited allowed Holds)
    (keeps : kernel.Keeps allowed Holds) (baseHolds : Holds base) (exponentHolds : Holds exponent) :
    (powIdentities kernel base exponent).Ensures allowed Holds := by
  unfold powIdentities
  split
  · exact .pure (inherited.int 1)
  split
  · exact .pure baseHolds
  split
  · exact .pure baseHolds
  · exact inherited.powOfNode_keeps keeps baseHolds exponentHolds

theorem identities_keeps (inherited : Inherited allowed Holds) (keeps : kernel.Keeps allowed Holds)
    {op : ArithOp} (leftHolds : Holds left) (rightHolds : Holds right) :
    (identities kernel op left right).Ensures allowed Holds := by
  cases op with
  | add => exact inherited.addIdentities_keeps keeps leftHolds rightHolds
  | sub => exact inherited.subIdentities_keeps keeps leftHolds rightHolds
  | mul => exact inherited.mulIdentities_keeps keeps leftHolds rightHolds
  | div => exact inherited.divIdentities_keeps keeps leftHolds rightHolds
  | pow => exact inherited.powIdentities_keeps keeps leftHolds rightHolds

theorem combine_keeps (inherited : Inherited allowed Holds) (keeps : kernel.Keeps allowed Holds)
    {op : ArithOp} (leftHolds : Holds left) (rightHolds : Holds right) :
    (combine kernel op left right).Ensures allowed Holds :=
  .orElse (firstError?_keeps leftHolds rightHolds)
    (.orElse (inherited.numericRule_keeps leftHolds rightHolds)
      (.orElse (inherited.arrayRule_keeps keeps leftHolds rightHolds)
        (.orElse (inherited.textRule_keeps leftHolds rightHolds)
          (inherited.identities_keeps keeps leftHolds rightHolds))))

end Identities

/-! ## Collection -/

section Collection

variable {chain : Chain} {op : ArithOp} {left right tree start : Expr} {list : List Expr}
  {terms : Terms}

/-- All terms of a chain have the property. -/
def HoldsOf (Holds : Expr → Prop) (terms : Terms) : Prop :=
  (∀ term ∈ terms.up, Holds term) ∧ ∀ term ∈ terms.down, Holds term

theorem HoldsOf.swap (hold : HoldsOf Holds terms) : HoldsOf Holds terms.swap := ⟨hold.2, hold.1⟩

theorem HoldsOf.push (hold : HoldsOf Holds terms) (holds : Holds tree) :
    HoldsOf Holds (terms.push tree) :=
  ⟨List.forall_mem_append.mpr ⟨hold.1, List.forall_mem_singleton.mpr holds⟩, hold.2⟩

theorem reciprocalPower_keeps (inherited : Inherited allowed Holds) {exponent : Number}
    (baseHolds : Holds tree) (exponentHolds : ∃ mark, Holds (.number exponent mark)) :
    (reciprocalPower tree exponent).Ensures allowed Holds := by
  unfold reciprocalPower
  split
  · exact .pure baseHolds
  · exact .bind (inherited.negateNumber_keeps exponentHolds) fun _ negated =>
      .make fun mark => inherited.arith.mpr ⟨baseHolds, negated⟩

theorem fillAdditive_keeps (inherited : Inherited allowed Holds) (holds : Holds tree)
    (hold : HoldsOf Holds terms) : (fillAdditive tree terms).Ensures allowed (HoldsOf Holds) := by
  fun_induction fillAdditive tree terms with
  | case1 left right mark terms leftIH rightIH =>
      have ⟨leftHolds, rightHolds⟩ := inherited.arith.mp holds
      exact .bind (leftIH leftHolds hold) fun filled filledHold =>
        rightIH filled rightHolds filledHold
  | case2 left right mark terms leftIH rightIH =>
      have ⟨leftHolds, rightHolds⟩ := inherited.arith.mp holds
      exact .bind (leftIH leftHolds hold) fun filled filledHold =>
        .bind (rightIH filled rightHolds filledHold.swap) fun _ all => .pure all.swap
  | case3 operand mark terms ih =>
      exact .bind (ih (inherited.neg.mp holds) hold.swap) fun _ all => .pure all.swap
  | case4 => exact .pure (hold.push holds)

theorem fillMultiplicative_keeps (inherited : Inherited allowed Holds) (holds : Holds tree)
    (hold : HoldsOf Holds terms) :
    (fillMultiplicative tree terms).Ensures allowed (HoldsOf Holds) := by
  fun_induction fillMultiplicative tree terms with
  | case1 left right mark terms leftIH rightIH =>
      have ⟨leftHolds, rightHolds⟩ := inherited.arith.mp holds
      exact .bind (leftIH leftHolds hold) fun filled filledHold =>
        rightIH filled rightHolds filledHold
  | case2 left right mark terms leftIH rightIH =>
      have ⟨leftHolds, rightHolds⟩ := inherited.arith.mp holds
      exact .bind (leftIH leftHolds hold) fun filled filledHold =>
        .bind (rightIH filled rightHolds filledHold.swap) fun _ all => .pure all.swap
  | case3 base exponent inner mark terms _ =>
      have ⟨baseHolds, exponentHolds⟩ := inherited.arith.mp holds
      exact .bind (inherited.reciprocalPower_keeps baseHolds ⟨inner, exponentHolds⟩)
        fun _ flipped => .pure (hold.swap.push flipped).swap
  | case4 => exact .pure (hold.push holds)
  | case5 => exact .pure (hold.push holds)

theorem fill_keeps (inherited : Inherited allowed Holds) (holds : Holds tree)
    (hold : HoldsOf Holds terms) : (fill chain tree terms).Ensures allowed (HoldsOf Holds) := by
  cases chain with
  | additive => exact inherited.fillAdditive_keeps holds hold
  | multiplicative => exact inherited.fillMultiplicative_keeps holds hold

theorem mergePair_keeps (inherited : Inherited allowed Holds) (keeps : kernel.Keeps allowed Holds)
    (leftHolds : Holds left) (rightHolds : Holds right) :
    (mergePair kernel op left right).Ensures allowed Holds :=
  .bind (inherited.combine_keeps keeps leftHolds rightHolds) fun _ merged =>
    .bind .guarded fun _ _ => .pure merged

theorem absorb_keeps (inherited : Inherited allowed Holds) (keeps : kernel.Keeps allowed Holds)
    (holds : Holds tree) (hold : ∀ term ∈ list, Holds term) :
    (absorb kernel chain tree list).Ensures allowed (∀ term ∈ ·, Holds term) := by
  induction list with
  | nil => exact .failure
  | cons nearest before ih =>
      rw [List.forall_mem_cons] at hold
      unfold absorb
      split
      · refine .orElse ?_ ?_
        · exact .bind (inherited.mergePair_keeps keeps hold.1 holds) fun _ merged =>
            .pure (List.forall_mem_cons.mpr ⟨merged, hold.2⟩)
        · exact .bind (ih hold.2) fun _ absorbed =>
            .pure (List.forall_mem_cons.mpr ⟨hold.1, absorbed⟩)
      · exact .failure

theorem mergeRuns_keeps (inherited : Inherited allowed Holds) (keeps : kernel.Keeps allowed Holds)
    {done : List Expr} (doneHold : ∀ term ∈ done, Holds term) (hold : ∀ term ∈ list, Holds term) :
    (mergeRuns kernel chain done list).Ensures allowed (∀ term ∈ ·, Holds term) := by
  induction list generalizing done with
  | nil => exact .pure fun term member => doneHold term (List.mem_reverse.mp member)
  | cons term rest ih =>
      rw [List.forall_mem_cons] at hold
      exact Rule.Ensures.run_match (inherited.absorb_keeps keeps hold.1 doneHold)
        (fun _ absorbed => ih absorbed hold.2)
        (ih (List.forall_mem_cons.mpr ⟨hold.1, doneHold⟩) hold.2)

theorem sortTerms_keeps (hold : ∀ term ∈ list, Holds term) :
    ∀ term ∈ sortTerms chain list, Holds term :=
  fun term member => hold term ((sortTerms_perm chain list).mem_iff.mp member)

theorem tidy_keeps (inherited : Inherited allowed Holds) (keeps : kernel.Keeps allowed Holds)
    (hold : ∀ term ∈ list, Holds term) :
    (tidy kernel chain list).Ensures allowed (∀ term ∈ ·, Holds term) :=
  inherited.mergeRuns_keeps keeps (List.forall_mem_nil _) (sortTerms_keeps hold)

theorem tidyBoth_keeps (inherited : Inherited allowed Holds) (keeps : kernel.Keeps allowed Holds)
    (hold : HoldsOf Holds terms) :
    (tidyBoth kernel chain terms).Ensures allowed (HoldsOf Holds) :=
  .bind (inherited.tidy_keeps keeps hold.1) fun _ up =>
    .bind (inherited.tidy_keeps keeps hold.2) fun _ down => .pure ⟨up, down⟩

theorem cancelOne_keeps (inherited : Inherited allowed Holds) (keeps : kernel.Keeps allowed Holds)
    (holds : Holds tree) (hold : ∀ term ∈ list, Holds term) :
    (cancelOne kernel chain tree list).Ensures allowed (∀ term ∈ ·, Holds term) := by
  induction list with
  | nil => exact .failure
  | cons candidate rest ih =>
      rw [List.forall_mem_cons] at hold
      refine .orElse ?_ ?_
      · exact .bind .guarded fun _ _ => .bind (inherited.mergePair_keeps keeps hold.1 holds)
          fun _ merged => .pure (List.forall_mem_cons.mpr ⟨merged, hold.2⟩)
      · exact .bind (ih hold.2) fun _ cancelled =>
          .pure (List.forall_mem_cons.mpr ⟨hold.1, cancelled⟩)

theorem cancel_keeps (inherited : Inherited allowed Holds) (keeps : kernel.Keeps allowed Holds)
    {up down : List Expr} (upHold : ∀ term ∈ up, Holds term)
    (downHold : ∀ term ∈ down, Holds term) :
    (cancel kernel chain up down).Ensures allowed (HoldsOf Holds) := by
  induction down generalizing up with
  | nil => exact .pure ⟨upHold, List.forall_mem_nil _⟩
  | cons term rest ih =>
      rw [List.forall_mem_cons] at downHold
      refine Rule.Ensures.run_match (inherited.cancelOne_keeps keeps downHold.1 upHold)
        (fun _ remaining => ih remaining downHold.2) ?_
      exact .bind (ih upHold downHold.2) fun _ cancelled =>
        .pure ⟨cancelled.1, List.forall_mem_cons.mpr ⟨downHold.1, cancelled.2⟩⟩

theorem withoutSign_keeps (inherited : Inherited allowed Holds) (holds : Holds tree) :
    (withoutSign tree).Ensures allowed Holds := by
  unfold withoutSign
  split
  · exact .pure (inherited.neg.mp holds)
  · split
    · exact .lift (inherited.negateNumber_keeps ⟨_, holds⟩)
    · exact .failure
  · exact .failure

theorem extractSigns_keeps (inherited : Inherited allowed Holds)
    (hold : ∀ term ∈ list, Holds term) :
    (extractSigns list).Ensures allowed fun extracted => ∀ term ∈ extracted.1, Holds term := by
  induction list with
  | nil => exact .pure (List.forall_mem_nil _)
  | cons factor factors ih =>
      rw [List.forall_mem_cons] at hold
      refine Rule.Ensures.run_match (inherited.withoutSign_keeps hold.1) (fun _ positive => ?_) ?_
      · exact .bind (ih hold.2) fun _ rest => .pure (List.forall_mem_cons.mpr ⟨positive, rest⟩)
      · exact .bind (ih hold.2) fun _ rest => .pure (List.forall_mem_cons.mpr ⟨hold.1, rest⟩)

theorem pullSigns_keeps (inherited : Inherited allowed Holds) (hold : HoldsOf Holds terms) :
    (pullSigns chain terms).Ensures allowed fun pulled => HoldsOf Holds pulled.1 := by
  cases chain with
  | additive => exact .pure hold
  | multiplicative =>
      exact .bind (inherited.extractSigns_keeps hold.1) fun _ up =>
        .bind (inherited.extractSigns_keeps hold.2) fun _ down => .pure ⟨up, down⟩

theorem flipped_keeps (inherited : Inherited allowed Holds) (holds : Holds tree) :
    (flipped chain tree).Ensures allowed Holds := by
  unfold flipped
  split
  · split
    · exact .lift (inherited.negateNumber_keeps ⟨_, holds⟩)
    · exact .failure
  · exact .pure (inherited.neg.mp holds)
  · have ⟨baseHolds, exponentHolds⟩ := inherited.arith.mp holds
    split
    · exact .lift (inherited.reciprocalPower_keeps baseHolds ⟨_, exponentHolds⟩)
    · exact .failure
  · exact .failure

theorem splitFlipped_keeps (inherited : Inherited allowed Holds)
    (hold : ∀ term ∈ list, Holds term) :
    (splitFlipped chain list).Ensures allowed fun split =>
      (∀ term ∈ split.1, Holds term) ∧ ∀ term ∈ split.2, Holds term := by
  induction list with
  | nil => exact .pure ⟨List.forall_mem_nil _, List.forall_mem_nil _⟩
  | cons term list ih =>
      rw [List.forall_mem_cons] at hold
      refine Rule.Ensures.run_match (inherited.flipped_keeps hold.1) (fun _ inverse => ?_) ?_
      · exact .bind (ih hold.2) fun _ rest =>
          .pure ⟨rest.1, List.forall_mem_cons.mpr ⟨inverse, rest.2⟩⟩
      · exact .bind (ih hold.2) fun _ rest =>
          .pure ⟨List.forall_mem_cons.mpr ⟨hold.1, rest.1⟩, rest.2⟩

theorem balance_keeps (inherited : Inherited allowed Holds) (hold : HoldsOf Holds terms) :
    (balance chain terms).Ensures allowed (HoldsOf Holds) :=
  .bind (inherited.splitFlipped_keeps hold.1) fun _ up =>
    .bind (inherited.splitFlipped_keeps hold.2) fun _ down =>
      .pure ⟨List.forall_mem_append.mpr ⟨up.1, down.2⟩, List.forall_mem_append.mpr ⟨down.1, up.2⟩⟩

theorem settle_keeps (inherited : Inherited allowed Holds) (keeps : kernel.Keeps allowed Holds)
    (hold : HoldsOf Holds terms) : (settle kernel chain terms).Ensures allowed (HoldsOf Holds) :=
  .bind (inherited.tidyBoth_keeps keeps hold) fun _ tidied =>
    .bind (inherited.cancel_keeps keeps tidied.1 tidied.2) fun _ cancelled =>
      .bind (inherited.tidyBoth_keeps keeps cancelled) fun _ merged =>
        .bind (inherited.balance_keeps merged) fun _ balanced =>
          .pure ⟨sortTerms_keeps balanced.1, sortTerms_keeps balanced.2⟩

theorem foldBack_keeps (inherited : Inherited allowed Holds) (startHolds : Holds start)
    (hold : ∀ term ∈ list, Holds term) : (foldBack op start list).Ensures Holds := by
  induction list with
  | nil => exact .pure startHolds
  | cons term list ih =>
      rw [List.forall_mem_cons] at hold
      exact .bind (ih hold.2) fun _ folded => .make fun mark => inherited.arith.mpr ⟨folded, hold.1⟩

theorem foldReversed?_keeps (inherited : Inherited allowed Holds)
    (hold : ∀ term ∈ list, Holds term) :
    (foldReversed? op list).Ensures (∀ tree ∈ ·, Holds tree) := by
  unfold foldReversed?
  split
  · rename_i last found
    refine .bind (inherited.foldBack_keeps (hold last (List.mem_of_getLast? found))
      fun term member => hold term (List.mem_of_mem_dropLast member)) fun tree holds => .pure ?_
    rintro _ ⟨⟩
    exact holds
  · exact .pure nofun

theorem foldAdditive_keeps (inherited : Inherited allowed Holds) (hold : HoldsOf Holds terms) :
    (foldAdditive terms).Ensures Holds := by
  refine .bind (inherited.foldReversed?_keeps hold.1) fun folded up => ?_
  split
  · exact inherited.foldBack_keeps (up _ rfl) hold.2
  · rename_i last found
    have lastHolds := hold.2 last (List.mem_of_getLast? found)
    refine .bind (.make fun mark => inherited.neg.mpr lastHolds) fun _ first =>
      inherited.foldBack_keeps first fun term member => ?_
    exact hold.2 term (List.mem_of_mem_dropLast member)
  · exact .pure (inherited.int 0)

theorem signedNumerator_keeps (inherited : Inherited allowed Holds)
    (keeps : kernel.Keeps allowed Holds) {negative : Bool} (hold : ∀ term ∈ list, Holds term) :
    (signedNumerator kernel negative list).Ensures allowed (∀ term ∈ ·, Holds term) := by
  unfold signedNumerator
  split
  · split
    · rename_i last found
      refine .bind (keeps.negate (hold last (List.mem_of_getLast? found))) fun _ negated =>
        .pure (List.forall_mem_append.mpr ⟨?_, List.forall_mem_singleton.mpr negated⟩)
      exact fun term member => hold term (List.mem_of_mem_dropLast member)
    · exact .pure (List.forall_mem_singleton.mpr (inherited.int (-1)))
  · exact .pure hold

theorem foldMultiplicative_keeps (inherited : Inherited allowed Holds)
    (keeps : kernel.Keeps allowed Holds) {negative : Bool} (hold : HoldsOf Holds terms) :
    (foldMultiplicative kernel negative terms).Ensures allowed Holds := by
  refine .bind (inherited.signedNumerator_keeps keeps hold.1) fun _ numerator =>
    .bind (.ofMarking (inherited.foldReversed?_keeps numerator)) fun folded foldedHold => ?_
  have top : Holds (folded.getD Chain.multiplicative.neutral) := by
    cases folded with
    | some tree => exact foldedHold tree rfl
    | none => exact inherited.int 1
  refine .bind (.ofMarking (inherited.foldReversed?_keeps hold.2)) fun bottom bottomHold => ?_
  split
  · exact .make fun mark => inherited.arith.mpr ⟨top, bottomHold _ rfl⟩
  · exact .pure top

theorem collect_keeps (inherited : Inherited allowed Holds) (keeps : kernel.Keeps allowed Holds)
    (hold : HoldsOf Holds terms) : (collect kernel chain terms).Ensures allowed Holds := by
  refine .bind .step fun _ _ => .bind (inherited.pullSigns_keeps hold) fun _ unsigned =>
    .bind (inherited.settle_keeps keeps unsigned) fun settled settledHold => ?_
  split
  · exact .pure (inherited.int 0)
  · have kept : HoldsOf Holds
        ⟨settled.up.filter (!chain.isNeutral ·), settled.down.filter (!chain.isNeutral ·)⟩ :=
      ⟨fun term member => settledHold.1 term (List.mem_filter.mp member).1,
        fun term member => settledHold.2 term (List.mem_filter.mp member).1⟩
    cases chain with
    | additive => exact .ofMarking (inherited.foldAdditive_keeps kept)
    | multiplicative => exact inherited.foldMultiplicative_keeps keeps kept

end Collection

/-! ## The engine -/

section Engine

variable {op : ArithOp} {left right operand : Expr}

theorem collectOrBuild_keeps (inherited : Inherited allowed Holds)
    (keeps : kernel.Keeps allowed Holds) (leftHolds : Holds left) (rightHolds : Holds right) :
    (collectOrBuild kernel op left right).Ensures allowed Holds := by
  have build : Traced.Ensures allowed (liftM (Expr.make (.arith op left right))) Holds :=
    .make fun mark => inherited.arith.mpr ⟨leftHolds, rightHolds⟩
  unfold collectOrBuild
  split
  · exact build
  · rename_i chain _
    have filled : (fillOperands chain op left right .empty).Ensures allowed (HoldsOf Holds) := by
      refine .bind (inherited.fill_keeps leftHolds ⟨List.forall_mem_nil _, List.forall_mem_nil _⟩)
        fun _ first => ?_
      split
      · exact .bind (inherited.fill_keeps rightHolds first.swap) fun _ all => .pure all.swap
      · exact inherited.fill_keeps rightHolds first
    refine collectFilled_ensures filled fun terms hold => ?_
    split
    · exact inherited.collect_keeps keeps hold
    · exact build

theorem applyBinary_keeps (inherited : Inherited allowed Holds) (keeps : kernel.Keeps allowed Holds)
    (leftHolds : Holds left) (rightHolds : Holds right) :
    (applyBinary kernel op left right).Ensures allowed Holds :=
  Rule.Ensures.run_match (inherited.combine_keeps keeps leftHolds rightHolds)
    (fun _ found => .pure found) (inherited.collectOrBuild_keeps keeps leftHolds rightHolds)

theorem negateByForm_keeps (inherited : Inherited allowed Holds)
    (keeps : kernel.Keeps allowed Holds) (holds : Holds operand) :
    (negateByForm kernel operand).Ensures allowed Holds := by
  unfold negateByForm
  split
  · exact .pure (inherited.neg.mp holds)
  · have ⟨leftHolds, rightHolds⟩ := inherited.arith.mp holds
    exact .lift (keeps.binary rightHolds leftHolds)
  · have ⟨leftHolds, rightHolds⟩ := inherited.arith.mp holds
    split
    · rename_i view
      exact .bind (.lift (inherited.negateNumber_keeps (of_asNumber? leftHolds view)))
        fun _ flipped => .lift (keeps.binary flipped rightHolds)
    · rename_i view
      exact .bind (.lift (inherited.negateNumber_keeps (of_asNumber? rightHolds view)))
        fun _ flipped => .lift (keeps.binary flipped leftHolds)
    · exact .failure
  · exact .failure

theorem negateTerms_keeps (inherited : Inherited allowed Holds)
    (keeps : kernel.Keeps allowed Holds) (holds : Holds operand) :
    (negateTerms kernel operand).Ensures allowed Holds := by
  have filled : Traced.Ensures allowed (do return (← fillAdditive operand Terms.empty.swap).swap)
      (HoldsOf Holds) :=
    .bind (inherited.fillAdditive_keeps holds ⟨List.forall_mem_nil _, List.forall_mem_nil _⟩)
      fun _ hold => .pure hold.swap
  refine collectFilled_ensures filled fun terms hold => ?_
  split
  · exact inherited.collect_keeps keeps hold
  · exact .make fun mark => inherited.neg.mpr holds

theorem applyNegation_keeps (inherited : Inherited allowed Holds)
    (keeps : kernel.Keeps allowed Holds) (holds : Holds operand) :
    (applyNegation kernel operand).Ensures allowed Holds := by
  unfold applyNegation
  split
  · exact .pure holds
  · split
    · exact inherited.negateNumber_keeps (inherited.number holds ‹_›)
    · rename_i items _ view
      obtain ⟨inner, rfl⟩ := Expr.eq_of_asArray? view
      exact .bind (.forEach fun item member => keeps.negate (inherited.items holds item member))
        fun _ results => .make fun mark => inherited.array holds results
    · split
      · rename_i textual
        exact .make (inherited.fault holds (by rw [textual, Bool.or_true]))
      · exact Rule.Ensures.run_match
          (.orElse (inherited.negateByForm_keeps keeps holds) (inherited.negated_keeps keeps holds))
          (fun _ found => .pure found) (inherited.negateTerms_keeps keeps holds)

theorem plain_keeps (inherited : Inherited allowed Holds) :
    Kernel.plain.Keeps allowed Holds where
  binary leftHolds rightHolds :=
    Rule.Ensures.run_match (inherited.numericRule_keeps leftHolds rightHolds)
      (fun _ found => .pure found) (.make fun mark => inherited.arith.mpr ⟨leftHolds, rightHolds⟩)
  negate holds := by
    unfold Kernel.plain
    dsimp only
    split
    · exact inherited.negateNumber_keeps (inherited.number holds ‹_›)
    · exact .make fun mark => inherited.neg.mpr holds

/-- The engine hands the property on at every depth. -/
theorem ofDepth_keeps (inherited : Inherited allowed Holds) (depth : Nat) :
    (Kernel.ofDepth depth).Keeps allowed Holds := by
  induction depth with
  | zero => exact inherited.plain_keeps
  | succ depth ih =>
      exact ⟨inherited.applyBinary_keeps ih, inherited.applyNegation_keeps ih⟩

end Engine

end Inherited

end SymbolicAlgebra
