import SymbolicAlgebra.Evaluate
import SymbolicAlgebra.Proofs.Inheritance

/-!
# Bracketed use of scratch buffers

Collecting terms takes two scratch buffers and hands both back, and in between calls on
arithmetic that may collect terms in turn.  Hence in the trace of any computation the
steps that take and hand back buffers match like brackets.

This does not depend on the values that are computed, so there is one lemma for each
way of putting computations together, and one for each function along its definition.
-/

namespace SymbolicAlgebra

/-- The step neither takes nor hands back a buffer. -/
def Step.isQuiet : Step → Bool
  | .checkout _ | .giveBack _ => false
  | _ => true

/-- Every buffer that is taken is empty, and it is handed back, the last one first, and
no other one is. -/
inductive Bracketed : List Step → Prop where
  | nil : Bracketed []
  | quiet {step rest} : step.isQuiet = true → Bracketed rest → Bracketed (step :: rest)
  | buffer {left inner rest} : Bracketed inner → Bracketed rest →
      Bracketed (.checkout [] :: (inner ++ .giveBack left :: rest))

theorem Bracketed.append {first second : List Step} (left : Bracketed first)
    (right : Bracketed second) : Bracketed (first ++ second) := by
  induction left with
  | nil => exact right
  | quiet isQuiet _ ih => exact .quiet isQuiet ih
  | @buffer left inner rest inside _ _ ih =>
      rw [List.cons_append, List.append_assoc, List.cons_append]
      exact .buffer inside ih

theorem Bracketed.found_eq_nil {steps : List Step} {found : List Expr}
    (bracketed : Bracketed steps) (taken : .checkout found ∈ steps) : found = [] := by
  induction bracketed with
  | nil => cases taken
  | quiet isQuiet _ ih =>
      rcases List.mem_cons.mp taken with rfl | later
      · cases isQuiet
      · exact ih later
  | buffer _ _ innerIH restIH =>
      rcases List.mem_cons.mp taken with first | later
      · exact Step.checkout.inj first
      rcases List.mem_append.mp later with inside | behind
      · exact innerIH inside
      rcases List.mem_cons.mp behind with handedBack | behind
      · cases handedBack
      · exact restIH behind

/-! ## Ways of putting computations together -/

namespace Traced

variable {First Second : Type}

/-- In every run, buffers are taken and handed back like brackets. -/
def Nests (computation : Traced First) : Prop := ∀ start, Bracketed (computation.steps start)

namespace Nests

theorem pure (value : First) : Nests (Pure.pure value) := fun _ => .nil

theorem step {taken : Step} (isQuiet : taken.isQuiet = true) : Nests (Traced.step taken) :=
  fun _ => .quiet isQuiet .nil

theorem bind {first : Traced First} {next : First → Traced Second} (nests : Nests first)
    (continues : ∀ value, Nests (next value)) : Nests (first >>= next) :=
  fun start => (nests start).append (continues _ _)

theorem marking (compute : Marking First) : Nests (liftM compute) := fun _ => .nil

theorem make (node : Expr) : Nests (liftM (Expr.make node)) := marking _

theorem forEach {compute : First → Traced Second} (nests : ∀ item, Nests (compute item))
    (items : List First) : Nests (Traced.forEach compute items) := by
  induction items with
  | nil => exact pure []
  | cons item items ih => exact bind (nests item) fun _ => bind ih fun _ => pure _

theorem numeric (operands : List Number) (result : Number) :
    Nests (Traced.numeric operands result) := by
  unfold Traced.numeric
  split
  · exact bind (step rfl) fun _ => marking _
  · exact marking _

/-- Two buffers around a computation that nests. -/
theorem withScratch {compute : Terms → Traced (First × Terms)} (nests : Nests (compute .empty)) :
    Nests (SymbolicAlgebra.withScratch compute) := by
  intro start
  let left := ((compute .empty).value start).2
  have inside : Bracketed
      (.checkout [] :: ((compute .empty).steps start ++ [.giveBack left.down])) :=
    .buffer (nests start) .nil
  have around : Bracketed (.checkout [] ::
      ((.checkout [] :: ((compute .empty).steps start ++ [.giveBack left.down])) ++
        [.giveBack left.up])) :=
    .buffer inside .nil
  rw [List.cons_append, List.append_assoc] at around
  exact around

end Nests

end Traced

namespace Rule

variable {First Second : Type}

/-- In every run of the rule, buffers are taken and handed back like brackets. -/
def Nests (rule : Rule First) : Prop := rule.run.Nests

namespace Nests

theorem pure (value : First) : Nests (Pure.pure value) := Traced.Nests.pure _

theorem failure : Nests (Alternative.failure : Rule First) := Traced.Nests.pure _

theorem lift {computation : Traced First} (nests : computation.Nests) :
    Nests (liftM computation) :=
  nests.bind fun _ => Traced.Nests.pure _

theorem bind {first : Rule First} {next : First → Rule Second} (nests : Nests first)
    (continues : ∀ value, Nests (next value)) : Nests (first >>= next) := by
  unfold Nests
  rw [OptionT.run_bind]
  refine Traced.Nests.bind nests fun result => ?_
  cases result with
  | none => exact failure
  | some value => exact continues value

theorem orElse {first second : Rule First} (nests : Nests first) (otherwise : Nests second) :
    Nests (first <|> second) := by
  unfold Nests
  rw [OptionT.run_orElse]
  refine Traced.Nests.bind nests fun result => ?_
  cases result with
  | none => exact otherwise
  | some value => exact pure value

theorem guarded {test : Prop} [Decidable test] : Nests (guard test) := by
  unfold guard
  split
  · exact pure ()
  · exact failure

theorem ofOption (result : Option First) : Nests (Rule.ofOption result) := Traced.Nests.pure _

/-- A rule followed by a computation for the case that it does not apply. -/
theorem run_match {rule : Rule First} {next : Option First → Traced Second} (nests : Nests rule)
    (found : ∀ value, (next (some value)).Nests) (missing : (next none).Nests) :
    (rule.run >>= next).Nests := by
  refine Traced.Nests.bind nests fun result => ?_
  cases result with
  | none => exact missing
  | some value => exact found value

end Nests

end Rule

/-- The steps of arithmetic match like brackets. -/
structure Kernel.Nests (kernel : Kernel) : Prop where
  binary : ∀ op left right, (kernel.binary op left right).Nests
  negate : ∀ operand, (kernel.negate operand).Nests

namespace Kernel.Nests

open SymbolicAlgebra.Expr

variable {kernel : Kernel} {op : ArithOp} {left right tree : Expr} {chain : Chain}

/-! ## Rules -/

theorem numericRule_nests : (numericRule op left right).Nests := by
  unfold numericRule
  split
  · split
    · exact .bind (.lift (.step rfl)) fun _ => .lift (.marking _)
    · exact .lift (.numeric _ _)
  · exact .failure

theorem arrayRule_nests (nests : kernel.Nests) : (arrayRule kernel op left right).Nests := by
  have spread (compute : Expr → Traced Expr) (each : ∀ item, (compute item).Nests)
      (items : List Expr) :
      ((do
        let results ← Traced.forEach compute items
        Expr.make (.array results) : Rule Expr)).Nests :=
    .bind (.lift (.forEach each items)) fun _ => .lift (.make _)
  unfold arrayRule
  split
  · split
    · exact .failure
    · unfold elementwise
      split
      · exact .lift (.make _)
      · exact .lift (.bind (.forEach (fun _ => nests.binary _ _ _) _) fun _ => .make _)
  · cases op with
    | mul | div | pow => exact spread _ (fun _ => nests.binary _ _ _) _
    | add | sub =>
        dsimp only
        split
        · exact .lift (.make _)
        · exact .failure
  · cases op with
    | mul | div => exact spread _ (fun _ => nests.binary _ _ _) _
    | add | sub =>
        dsimp only
        split
        · exact .lift (.make _)
        · exact .failure
    | pow => exact .failure
  · exact .failure

theorem textRule_nests {operator : Operator} : (textRule operator left right).Nests := by
  unfold textRule
  split
  · exact .lift (.make _)
  · split
    · exact .lift (.make _)
    · exact .failure

theorem negateNumber_nests (number : Number) : (negateNumber number).Nests := .numeric _ _

theorem likeTerms_nests (nests : kernel.Nests) (subtract : Bool) :
    (likeTerms kernel subtract left right).Nests := by
  refine .bind (.lift (.marking _)) fun ⟨coefficient, rest⟩ =>
    .bind (.lift (.marking _)) fun ⟨other, otherRest⟩ => ?_
  dsimp only
  split
  · exact .failure
  · exact .bind (.lift (.numeric _ _)) fun _ => .lift (nests.binary _ _ _)

theorem negated_nests (nests : kernel.Nests) (tree : Expr) : (negated kernel tree).Nests := by
  fun_induction negated kernel tree with
  | case1 value => exact .lift (negateNumber_nests value)
  | case2 => exact .failure
  | case3 operand => exact .pure operand
  | case4 left right mark ih =>
      refine .orElse ?_ ?_
      · exact .bind .guarded fun _ => .bind ih fun _ => .lift (nests.binary _ _ _)
      · split
        · exact .lift (nests.binary _ _ _)
        · exact .failure
  | case5 left right mark ih =>
      exact .bind .guarded fun _ => .bind ih fun _ => .lift (nests.binary _ _ _)
  | case6 => exact .failure

theorem negateLeadingFactor_nests (nests : kernel.Nests) (tree : Expr) :
    (negateLeadingFactor kernel tree).Nests := by
  fun_induction negateLeadingFactor kernel tree with
  | case1 left right mark ih => exact .bind ih fun _ => .make _
  | case2 left right mark ih => exact .bind ih fun _ => .make _
  | case3 factor => exact nests.negate factor

theorem addIdentities_nests (nests : kernel.Nests) : (addIdentities kernel left right).Nests := by
  unfold addIdentities
  split
  · exact .pure right
  split
  · exact .pure left
  · exact .orElse (likeTerms_nests nests false)
      (.orElse (.bind (negated_nests nests right) fun _ => .lift (nests.binary _ _ _))
        (.bind (negated_nests nests left) fun _ => .lift (nests.binary _ _ _)))

theorem subIdentities_nests (nests : kernel.Nests) : (subIdentities kernel left right).Nests := by
  unfold subIdentities
  split
  · exact .pure left
  split
  · exact .lift (nests.negate right)
  split
  · exact .pure _
  · exact .orElse (likeTerms_nests nests true)
      (.bind (negated_nests nests right) fun _ => .lift (nests.binary _ _ _))

theorem mulSigns_nests (nests : kernel.Nests) : (mulSigns kernel left right).Nests := by
  unfold mulSigns
  split
  · exact .bind (.lift (negateNumber_nests _)) fun _ => .lift (nests.binary _ _ _)
  · exact .lift (nests.binary _ _ _)
  · split
    · exact .failure
    · exact .bind (.lift (nests.binary _ _ _)) fun product =>
        .lift (negateLeadingFactor_nests nests product)
  · exact .bind (.lift (nests.binary _ _ _)) fun product =>
      .lift (negateLeadingFactor_nests nests product)
  · exact .failure

theorem mulIdentities_nests (nests : kernel.Nests) : (mulIdentities kernel left right).Nests := by
  have powers : (mulPowers kernel left right).Nests := by
    unfold mulPowers
    dsimp only
    split
    · exact .failure
    · exact .bind (.lift (nests.binary _ _ _)) fun _ => .lift (nests.binary _ _ _)
  unfold mulIdentities
  split
  · exact .pure left
  split
  · exact .pure right
  split
  · exact .pure right
  split
  · exact .pure left
  split
  · exact .lift (nests.negate right)
  split
  · exact .lift (nests.negate left)
  · exact .orElse (mulSigns_nests nests) powers

theorem tangentRule_nests : (tangentRule left right).Nests := by
  unfold tangentRule
  split
  · split
    · exact .lift (.make _)
    · exact .failure
  · exact .failure

theorem divSigns_nests (nests : kernel.Nests) : (divSigns kernel left right).Nests := by
  unfold divSigns
  split
  · exact .lift (nests.binary _ _ _)
  · exact .bind (.lift (nests.binary _ _ _)) fun quotient =>
      .lift (negateLeadingFactor_nests nests quotient)
  · exact .bind (.lift (nests.binary _ _ _)) fun quotient =>
      .lift (negateLeadingFactor_nests nests quotient)
  · exact .failure

theorem divPowers_nests (nests : kernel.Nests) : (divPowers kernel left right).Nests := by
  unfold divPowers
  dsimp only
  split
  · exact .failure
  · refine .bind (.lift (nests.binary _ _ _)) fun exponent => ?_
    split
    · exact .bind (.lift (nests.negate _)) fun _ =>
        .bind (.lift (nests.binary _ _ _)) fun _ => .lift (nests.binary _ _ _)
    · exact .lift (nests.binary _ _ _)

theorem divIdentities_nests (nests : kernel.Nests) : (divIdentities kernel left right).Nests := by
  unfold divIdentities
  split
  · exact .pure left
  split
  · exact .lift (nests.negate left)
  split
  · exact .pure left
  split
  · exact .pure _
  · exact .orElse tangentRule_nests (.orElse (divSigns_nests nests) (divPowers_nests nests))

theorem powIdentities_nests (nests : kernel.Nests) : (powIdentities kernel left right).Nests := by
  unfold powIdentities
  split
  · exact .pure _
  split
  · exact .pure left
  split
  · exact .pure left
  · unfold powOfNode
    split
    · exact .bind .guarded fun _ =>
        .bind (.lift (nests.binary _ _ _)) fun _ => .lift (nests.binary _ _ _)
    · refine .bind (.lift (nests.binary _ _ _)) fun magnitude => ?_
      split
      · exact .pure magnitude
      · exact .lift (nests.negate magnitude)
    · exact .failure

theorem combine_nests (nests : kernel.Nests) : (combine kernel op left right).Nests := by
  have algebraic : (identities kernel op left right).Nests := by
    cases op with
    | add => exact addIdentities_nests nests
    | sub => exact subIdentities_nests nests
    | mul => exact mulIdentities_nests nests
    | div => exact divIdentities_nests nests
    | pow => exact powIdentities_nests nests
  exact .orElse (.ofOption _) (.orElse numericRule_nests
    (.orElse (arrayRule_nests nests) (.orElse textRule_nests algebraic)))

/-! ## Collection -/

section Collection

variable {terms : Terms}

theorem reciprocalPower_nests (base : Expr) (exponent : Number) :
    (reciprocalPower base exponent).Nests := by
  unfold reciprocalPower
  split
  · exact .pure base
  · exact .bind (.numeric _ _) fun _ => .make _

theorem fillAdditive_nests (tree : Expr) (terms : Terms) : (fillAdditive tree terms).Nests := by
  fun_induction fillAdditive tree terms with
  | case1 left right mark terms leftIH rightIH => exact .bind leftIH rightIH
  | case2 left right mark terms leftIH rightIH =>
      exact .bind leftIH fun filled => .bind (rightIH filled) fun _ => .pure _
  | case3 operand mark terms ih => exact .bind ih fun _ => .pure _
  | case4 => exact .pure _

theorem fillMultiplicative_nests (tree : Expr) (terms : Terms) :
    (fillMultiplicative tree terms).Nests := by
  fun_induction fillMultiplicative tree terms with
  | case1 left right mark terms leftIH rightIH => exact .bind leftIH rightIH
  | case2 left right mark terms leftIH rightIH =>
      exact .bind leftIH fun filled => .bind (rightIH filled) fun _ => .pure _
  | case3 => exact .bind (reciprocalPower_nests _ _) fun _ => .pure _
  | case4 => exact .pure _
  | case5 => exact .pure _

theorem fill_nests (tree : Expr) (terms : Terms) : (fill chain tree terms).Nests := by
  cases chain with
  | additive => exact fillAdditive_nests tree terms
  | multiplicative => exact fillMultiplicative_nests tree terms

theorem mergePair_nests (nests : kernel.Nests) : (mergePair kernel op left right).Nests :=
  .bind (combine_nests nests) fun _ => .bind .guarded fun _ => .pure _

theorem absorb_nests (nests : kernel.Nests) (term : Expr) (before : List Expr) :
    (absorb kernel chain term before).Nests := by
  induction before with
  | nil => exact .failure
  | cons nearest before ih =>
      unfold absorb
      split
      · exact .orElse (.bind (mergePair_nests nests) fun _ => .pure _) (.bind ih fun _ => .pure _)
      · exact .failure

theorem mergeRuns_nests (nests : kernel.Nests) (done rest : List Expr) :
    (mergeRuns kernel chain done rest).Nests := by
  induction rest generalizing done with
  | nil => exact .pure _
  | cons term rest ih => exact (absorb_nests nests term done).run_match (fun _ => ih _) (ih _)

theorem tidyBoth_nests (nests : kernel.Nests) (terms : Terms) :
    (tidyBoth kernel chain terms).Nests :=
  .bind (mergeRuns_nests nests _ _) fun _ => .bind (mergeRuns_nests nests _ _) fun _ => .pure _

theorem cancelOne_nests (nests : kernel.Nests) (term : Expr) (up : List Expr) :
    (cancelOne kernel chain term up).Nests := by
  induction up with
  | nil => exact .failure
  | cons candidate rest ih =>
      exact .orElse
        (.bind .guarded fun _ => .bind (mergePair_nests nests) fun _ => .pure _)
        (.bind ih fun _ => .pure _)

theorem cancel_nests (nests : kernel.Nests) (up down : List Expr) :
    (cancel kernel chain up down).Nests := by
  induction down generalizing up with
  | nil => exact .pure _
  | cons term rest ih =>
      exact (cancelOne_nests nests term up).run_match (fun _ => ih _)
        (.bind (ih up) fun _ => .pure _)

theorem withoutSign_nests (factor : Expr) : (withoutSign factor).Nests := by
  unfold withoutSign
  split
  · exact .pure _
  · split
    · exact .lift (negateNumber_nests _)
    · exact .failure
  · exact .failure

theorem extractSigns_nests (factors : List Expr) : (extractSigns factors).Nests := by
  induction factors with
  | nil => exact .pure _
  | cons factor factors ih =>
      exact (withoutSign_nests factor).run_match (fun _ => .bind ih fun _ => .pure _)
        (.bind ih fun _ => .pure _)

theorem pullSigns_nests (terms : Terms) : (pullSigns chain terms).Nests := by
  cases chain with
  | additive => exact .pure _
  | multiplicative =>
      exact .bind (extractSigns_nests _) fun _ => .bind (extractSigns_nests _) fun _ => .pure _

theorem flipped_nests (term : Expr) : (flipped chain term).Nests := by
  unfold flipped
  split
  · split
    · exact .lift (negateNumber_nests _)
    · exact .failure
  · exact .pure _
  · split
    · exact .lift (reciprocalPower_nests _ _)
    · exact .failure
  · exact .failure

theorem splitFlipped_nests (terms : List Expr) : (splitFlipped chain terms).Nests := by
  induction terms with
  | nil => exact .pure _
  | cons term terms ih =>
      exact (flipped_nests term).run_match (fun _ => .bind ih fun _ => .pure _)
        (.bind ih fun _ => .pure _)

theorem settle_nests (nests : kernel.Nests) (terms : Terms) :
    (settle kernel chain terms).Nests :=
  .bind (tidyBoth_nests nests _) fun _ => .bind (cancel_nests nests _ _) fun _ =>
    .bind (tidyBoth_nests nests _) fun _ =>
      .bind (.bind (splitFlipped_nests _) fun _ => .bind (splitFlipped_nests _) fun _ => .pure _)
        fun _ => .pure _

theorem foldMultiplicative_nests (nests : kernel.Nests) (negative : Bool) (terms : Terms) :
    (foldMultiplicative kernel negative terms).Nests := by
  have signed : (signedNumerator kernel negative terms.up).Nests := by
    unfold signedNumerator
    split
    · split
      · exact .bind (nests.negate _) fun _ => .pure _
      · exact .pure _
    · exact .pure _
  refine .bind signed fun _ => .bind (.marking _) fun _ => .bind (.marking _) fun bottom => ?_
  cases bottom with
  | some bottom => exact .make _
  | none => exact .pure _

theorem collect_nests (nests : kernel.Nests) (terms : Terms) :
    (collect kernel chain terms).Nests := by
  refine .bind (.step rfl) fun _ => .bind (pullSigns_nests terms) fun unsigned =>
    .bind (settle_nests nests _) fun settled => ?_
  split
  · exact .pure _
  · cases chain with
    | additive => exact .marking _
    | multiplicative => exact foldMultiplicative_nests nests _ _

end Collection

/-! ## The engine -/

theorem collectFilled_nests {chain : Chain} {gather : Terms → Traced Terms}
    (nests : kernel.Nests) (fills : (gather .empty).Nests) (node : Expr) :
    (collectFilled kernel chain gather node).Nests := by
  refine .withScratch (.bind fills fun terms => ?_)
  split
  · exact .bind (collect_nests nests terms) fun _ => .pure _
  · exact .bind (.make _) fun _ => .pure _

theorem collectOrBuild_nests (nests : kernel.Nests) :
    (collectOrBuild kernel op left right).Nests := by
  unfold collectOrBuild
  split
  · exact .make _
  · rename_i chain _
    have filled : (fillOperands chain op left right .empty).Nests := by
      refine .bind (fill_nests _ _) fun terms => ?_
      split
      · exact .bind (fill_nests _ _) fun _ => .pure _
      · exact fill_nests _ _
    exact collectFilled_nests nests filled _

theorem negateByForm_nests (nests : kernel.Nests) (tree : Expr) :
    (negateByForm kernel tree).Nests := by
  unfold negateByForm
  split
  · exact .pure _
  · exact .lift (nests.binary _ _ _)
  · split
    · exact .bind (.lift (negateNumber_nests _)) fun _ => .lift (nests.binary _ _ _)
    · exact .bind (.lift (negateNumber_nests _)) fun _ => .lift (nests.binary _ _ _)
    · exact .failure
  · exact .failure

theorem negateTerms_nests (nests : kernel.Nests) (tree : Expr) :
    (negateTerms kernel tree).Nests := by
  exact collectFilled_nests nests (.bind (fillAdditive_nests tree _) fun _ => .pure _) _

theorem applyNegation_nests (nests : kernel.Nests) (tree : Expr) :
    (applyNegation kernel tree).Nests := by
  unfold applyNegation
  split
  · exact .pure tree
  split
  · exact negateNumber_nests _
  · exact .bind (.forEach nests.negate _) fun _ => .make _
  · split
    · exact .make _
    · exact ((negateByForm_nests nests tree).orElse (negated_nests nests tree)).run_match
        (fun _ => .pure _) (negateTerms_nests nests tree)

theorem plain_nests : Kernel.plain.Nests where
  binary _ _ _ := numericRule_nests.run_match (fun _ => .pure _) (.make _)
  negate operand := by
    unfold Kernel.plain
    dsimp only
    split
    · exact negateNumber_nests _
    · exact .make _

theorem above (nests : kernel.Nests) : (Kernel.above kernel).Nests where
  binary _ _ _ := (combine_nests nests).run_match (fun _ => .pure _) (collectOrBuild_nests nests)
  negate := applyNegation_nests nests

theorem ofDepth (depth : Nat) : (Kernel.ofDepth depth).Nests := by
  induction depth with
  | zero => exact plain_nests
  | succ depth ih => exact ⟨ih.above.binary, ih.above.negate⟩

end Kernel.Nests

/-! ## Operations on trees -/

namespace Expr

variable {left right tree node : Expr} {op : ArithOp} {name : String}

theorem arithmetic_nests : (arithmetic op left right).Nests :=
  (Kernel.Nests.ofDepth _).binary op left right

theorem neg_nests : tree.neg.Nests := (Kernel.Nests.ofDepth _).negate tree

theorem euclideanNorm_nests (tree : Expr) : (euclideanNorm tree).Nests := by
  have squared (item : Expr) : (squaredMagnitude item).Nests := by
    unfold squaredMagnitude
    split
    · exact .bind (.marking _) fun _ => arithmetic_nests
    · exact arithmetic_nests
  have added (total : Expr) (items : List Expr) : (addSquares total items).Nests := by
    induction items generalizing total with
    | nil => exact .pure total
    | cons item items ih =>
        exact .bind (squared item) fun _ => .bind arithmetic_nests fun _ => ih _
  unfold euclideanNorm
  split
  · exact .bind (added _ _) fun _ => .marking _
  · exact .marking _

theorem determinant_nests (tree : Expr) : (determinant tree).Nests := by
  have multiplied (product : Expr) (entries : List (List Expr × Nat)) :
      (multiplyEntries product entries).Nests := by
    induction entries generalizing product with
    | nil => exact .pure product
    | cons entry entries ih => exact .bind arithmetic_nests fun _ => ih _
  have added (rows : List (List Expr)) (total : Expr) (permutations : List Permutation) :
      (addProducts rows total permutations).Nests := by
    induction permutations generalizing total with
    | nil => exact .pure total
    | cons permutation rest ih =>
        exact .bind (multiplied _ _) fun _ => .bind arithmetic_nests fun _ => ih _
  unfold determinant
  split
  · exact .marking _
  · dsimp only
    split
    · exact .make _
    · split
      · exact added _ _ _
      · exact .make _

theorem unaryApply_nests (function : UnaryFunction) (tree : Expr) :
    (function.apply tree).Nests := by
  unfold UnaryFunction.apply
  split
  · exact .pure tree
  split
  · exact determinant_nests tree
  · exact euclideanNorm_nests tree
  · exact .bind (.step rfl) fun _ => .make _
  · exact .marking _

theorem apply_nests (function : Function) (arguments : List Expr) :
    (function.apply arguments).Nests := by
  unfold Function.apply
  split
  · exact .pure _
  · exact unaryApply_nests _ _
  · exact .marking _
  · exact .marking _
  · exact .make _

/-! ### Derivatives -/

theorem differentiateArith_nests {derive : Expr → Traced Expr}
    (derives : ∀ tree, (derive tree).Nests) :
    (differentiateArith derive name node op left right).Nests := by
  have first := derives left
  have second := derives right
  cases op with
  | add | sub => exact .bind first fun _ => .bind second fun _ => arithmetic_nests
  | mul =>
      exact .bind first fun _ => .bind arithmetic_nests fun _ => .bind second fun _ =>
        .bind arithmetic_nests fun _ => arithmetic_nests
  | div =>
      exact .bind first fun _ => .bind arithmetic_nests fun _ => .bind second fun _ =>
        .bind arithmetic_nests fun _ => .bind arithmetic_nests fun _ =>
          .bind arithmetic_nests fun _ => arithmetic_nests
  | pow =>
      unfold differentiateArith
      dsimp only
      split
      · exact .bind arithmetic_nests fun _ => .bind arithmetic_nests fun _ =>
          .bind arithmetic_nests fun _ => .bind first fun _ => arithmetic_nests
      · split
        · exact .bind second fun _ => arithmetic_nests
        · exact .bind (unaryApply_nests _ _) fun _ => .bind arithmetic_nests fun _ =>
            .bind (derives _) fun _ => arithmetic_nests

theorem chainRule_nests {function : UnaryFunction} {argument inner : Expr} :
    (chainRule function node argument inner name).Nests := by
  have outer (other : UnaryFunction) : (other.apply argument).Nests :=
    unaryApply_nests other argument
  cases function with
  | sin | sinh | cosh | exp | abs => exact .bind (outer _) fun _ => arithmetic_nests
  | cos => exact .bind (outer _) fun _ => .bind neg_nests fun _ => arithmetic_nests
  | tan | tanh => exact .bind (outer _) fun _ => .bind arithmetic_nests fun _ => arithmetic_nests
  | atan => exact .bind arithmetic_nests fun _ => .bind arithmetic_nests fun _ => arithmetic_nests
  | ln => exact arithmetic_nests
  | sqrt => exact .bind (outer _) fun _ => .bind arithmetic_nests fun _ => arithmetic_nests
  | norm => exact .bind arithmetic_nests fun _ => .bind (outer _) fun _ => arithmetic_nests
  | conj => exact unaryApply_nests _ inner
  | sign | fact | det | randList => exact .marking _

theorem differentiateNode_nests {derive : Expr → Traced Expr}
    (derives : ∀ tree, (derive tree).Nests) (tree : Expr) :
    (differentiateNode derive name tree).Nests := by
  unfold differentiateNode
  split
  · exact .pure _
  · exact .pure _
  · exact .pure _
  · exact .pure _
  · exact .pure _
  · exact .pure _
  · exact .bind (.forEach derives _) fun _ => .make _
  · exact .bind (derives _) fun _ => .bind (derives _) fun _ => .make _
  · split
    · exact .marking _
    · exact .bind (derives _) fun _ => .make _
  · exact .marking _
  · exact .marking _
  · exact .marking _
  · exact .marking _
  · split
    · exact .pure _
    split
    · exact .bind (derives _) fun _ => neg_nests
    · exact differentiateArith_nests derives
    · exact .bind (derives _) fun _ => chainRule_nests
    · exact .bind (derives _) fun _ => .bind (derives _) fun _ => .bind (.make _) fun _ => .make _
    · exact .bind (derives _) fun _ => .bind (derives _) fun _ => .bind (.make _) fun _ => .make _
    · exact .marking _

/-- The steps of a differentiation match like brackets. -/
theorem differentiate_nests (tree : Expr) (name : String) : (tree.differentiate name).Nests := by
  have nests (depth : Nat) (tree : Expr) : (differentiateTo depth name tree).Nests := by
    induction depth generalizing tree with
    | zero => exact .marking _
    | succ depth ih => exact differentiateNode_nests ih tree
  exact nests _ tree

/-! ### Solutions -/

theorem peel_nests (name : String) (left right : Expr) : (peel name left right).Nests := by
  have divided {tree divisor : Expr} : (tree.dividedBy divisor).Nests :=
    .bind (.step rfl) fun _ => arithmetic_nests
  have root {exponent side : Expr} : (rootBy exponent side).Nests := by
    unfold rootBy
    split
    · exact unaryApply_nests _ _
    · exact .bind divided fun _ => arithmetic_nests
  have moved {op : ArithOp} {first second : Expr} :
      (peelArith name op first second right).Nests := by
    unfold peelArith
    split
    · cases op with
      | add | sub | div => exact .bind (.lift arithmetic_nests) fun _ => .pure _
      | mul => exact .bind (.lift divided) fun _ => .pure _
      | pow => exact .bind (.lift root) fun _ => .pure _
    · split
      · cases op with
        | add | sub => exact .bind (.lift arithmetic_nests) fun _ => .pure _
        | mul | div => exact .bind (.lift divided) fun _ => .pure _
        | pow => exact .failure
      · exact .failure
  have inverse : (inverseStep name left right).Nests := by
    unfold inverseStep
    split
    · exact moved
    · exact .bind (.lift neg_nests) fun _ => .pure _
    · exact .bind (.lift (.marking _)) fun _ => .pure _
    · exact .bind (.lift arithmetic_nests) fun _ => .pure _
    · exact .failure
  exact .bind inverse fun _ => .bind (.lift (.step rfl)) fun _ => .pure _

theorem isolate_nests (name : String) (steps : Nat) (left right : Expr) :
    (isolate name steps left right).Nests := by
  induction steps generalizing left right with
  | zero => exact .marking _
  | succ steps ih =>
      unfold isolate
      split
      · exact .marking _
      · refine (peel_nests name left right).run_match (fun sides => ?_) (.marking _)
        dsimp only
        split
        · exact .pure _
        · exact ih _ _

/-- The steps of solving an equation match like brackets. -/
theorem solve_nests (equation : Expr) (name : String) : (equation.solve name).Nests := by
  unfold solve
  split
  · exact .pure _
  split
  · split
    · exact .marking _
    · exact .marking _
    · exact isolate_nests _ _ _ _
    · exact isolate_nests _ _ _ _
  · exact .make _

theorem pauseFor_nests (controller : Option Controller) (interrupted : Bool) (seconds : Expr) :
    (pauseFor controller interrupted seconds).Nests := by
  unfold pauseFor
  split
  · exact .pure _
  split
  · exact .make _
  split
  · split
    · exact .bind (.step rfl) fun _ => .make _
    · exact .make _
  · split
    · exact .make _
    · exact .make _

end Expr

/-! ## Evaluations -/

namespace Evaluation

variable {First Second : Type}

/-- The steps that an evaluation adds to the trace match like brackets. -/
def Nests (compute : Evaluation First) : Prop :=
  ∀ start value after, compute.run start = some (value, after) →
    ∃ taken, Bracketed taken ∧ after.steps = taken.reverse ++ start.steps

namespace Nests

theorem pure (value : First) : Nests (Pure.pure value) := by
  rintro start _ _ ⟨⟩
  exact ⟨[], .nil, rfl⟩

theorem unfinished : Nests (Evaluation.unfinished : Evaluation First) := by
  rintro start value after ⟨⟩

theorem ofTraced {computation : Traced First} (nests : computation.Nests) :
    Nests (Evaluation.ofTraced computation) := by
  rintro start _ _ ⟨⟩
  exact ⟨_, nests start.marks, rfl⟩

theorem marking (compute : Marking First) : Nests (liftM compute) :=
  ofTraced (Traced.Nests.marking compute)

theorem make (node : Expr) : Nests (liftM (Expr.make node)) := marking _

theorem changeScope (change : Scope → Scope) : Nests (Evaluation.changeScope change) := by
  rintro start _ _ ⟨⟩
  exact ⟨[], .nil, rfl⟩

theorem draw (count : Nat) : Nests (Evaluation.draw count) := by
  rintro start _ _ ⟨⟩
  exact ⟨[], .nil, rfl⟩

theorem isStopped (controller : Option Controller) : Nests (Evaluation.isStopped controller) := by
  rintro start _ _ ⟨⟩
  exact ⟨[], .nil, rfl⟩

theorem read : Nests (get : Evaluation EvalState) := by
  rintro start _ _ ⟨⟩
  exact ⟨[], .nil, rfl⟩

theorem bind {first : Evaluation First} {next : First → Evaluation Second} (nests : Nests first)
    (continues : ∀ value, Nests (next value)) : Nests (first >>= next) := by
  intro start result after run
  rw [StateT.run_bind] at run
  obtain ⟨⟨value, between⟩, firstRun, nextRun⟩ := Option.bind_eq_some_iff.mp run
  obtain ⟨earlier, earlierNested, stepsBetween⟩ := nests start value between firstRun
  obtain ⟨later, laterNested, stepsAfter⟩ := continues value between result after nextRun
  refine ⟨earlier ++ later, earlierNested.append laterNested, ?_⟩
  rw [stepsAfter, stepsBetween, List.reverse_append, List.append_assoc]

theorem note {step : Step} (isQuiet : step.isQuiet = true) : Nests (Evaluation.note step) :=
  ofTraced (.step isQuiet)

theorem inFrame {compute : Evaluation First} (nests : Nests compute) :
    Nests (Evaluation.inFrame compute) :=
  bind (changeScope _) fun _ => bind nests fun _ => bind (changeScope _) fun _ => pure _

theorem forEach {compute : Expr → Evaluation Expr} (nests : ∀ item, Nests (compute item))
    (items : List Expr) : Nests (Evaluation.forEach compute items) := by
  induction items with
  | nil => exact pure []
  | cons item items ih => exact bind (nests item) fun _ => bind ih fun _ => pure _

end Nests

end Evaluation

namespace Expr

variable {controller : Option Controller} {evaluate : Expr → Evaluation Expr}

theorem applyFunctionWith_nests (function : Function) (arguments : List Expr) :
    (applyFunctionWith controller function arguments).Nests := by
  unfold applyFunctionWith
  split
  · split
    · unfold drawRandomList
      split
      · split
        · exact .bind (.draw _) fun _ => .bind (.marking _) fun _ => .make _
        · exact .make _
      · split
        · exact .make _
        · exact .make _
    · exact .ofTraced (apply_nests _ _)
  · exact .ofTraced (apply_nests _ _)

theorem resolve_nests (evaluates : ∀ tree, (evaluate tree).Nests) (leaf : Expr) (name : String) :
    (resolve evaluate leaf name).Nests := by
  refine .bind .read fun state => ?_
  split
  · exact .pure _
  · split
    · exact .pure _
    · exact .bind (.changeScope _) fun _ => .bind (evaluates _) fun _ =>
        .bind (.changeScope _) fun _ => .pure _

theorem evaluateDerivative_nests (evaluates : ∀ tree, (evaluate tree).Nests) (tree target : Expr) :
    (evaluateDerivative evaluate tree target).Nests := by
  unfold evaluateDerivative
  split
  · refine .bind (.ofTraced (differentiate_nests _ _)) fun derivative => ?_
    split
    · exact .pure _
    · exact evaluates _
  · exact .make _

theorem evaluateSolution_nests (evaluates : ∀ tree, (evaluate tree).Nests)
    (equation unknown : Expr) : (evaluateSolution evaluate equation unknown).Nests := by
  unfold evaluateSolution
  split
  · exact .bind (.inFrame (.bind (.changeScope _) fun _ => evaluates _)) fun _ =>
      .ofTraced (solve_nests _ _)
  · exact .make _

theorem evaluateConditional_nests (evaluates : ∀ tree, (evaluate tree).Nests)
    (test consequence alternative : Expr) :
    (evaluateConditional evaluate test consequence alternative).Nests := by
  refine .bind (evaluates _) fun decision => ?_
  split
  · exact evaluates _
  · exact evaluates _
  · split
    · exact .pure _
    split
    · exact .make _
    · exact .bind (evaluates _) fun _ => .bind (evaluates _) fun _ => .make _

theorem runLoop_nests (evaluates : ∀ tree, (evaluate tree).Nests) (test body : Expr)
    (step : Option Expr) (fuel : Nat) (last : Expr) :
    (runLoop controller evaluate test body step fuel last).Nests := by
  induction fuel generalizing last with
  | zero => exact .unfinished
  | succ fuel ih =>
      unfold runLoop
      refine .bind (.isStopped _) fun stopped => ?_
      split
      · exact .bind (.note rfl) fun _ => .make _
      · refine .bind (evaluates _) fun decision => ?_
        split
        · exact .pure _
        · split
          · exact .pure _
          · exact .make _
        · refine .bind (evaluates _) fun value => ?_
          split
          · exact .pure _
          split
          · exact ih _
          · refine .bind (evaluates _) fun advanced => ?_
            split
            · exact .pure _
            · exact ih _

theorem startLoop_nests (evaluates : ∀ tree, (evaluate tree).Nests) (test body : Expr)
    (step : Option Expr) (fuel : Nat) :
    (startLoop controller evaluate test body step fuel).Nests :=
  .bind (.marking _) fun _ => runLoop_nests evaluates test body step fuel _

theorem sumTerms_nests (evaluates : ∀ tree, (evaluate tree).Nests) (name : String) (body : Expr)
    (count : Nat) (index : Int) (total : Expr) :
    (sumTerms controller evaluate name body count index total).Nests := by
  induction count generalizing index total with
  | zero => exact .pure _
  | succ count ih =>
      unfold sumTerms
      refine .bind (.isStopped _) fun stopped => ?_
      split
      · exact .bind (.note rfl) fun _ => .make _
      · refine .bind (.make _) fun _ => .bind (.changeScope _) fun _ =>
          .bind (evaluates _) fun _ => .bind (.ofTraced arithmetic_nests) fun next => ?_
        split
        · exact .pure _
        · exact ih _ _

theorem evaluateSum_nests (evaluates : ∀ tree, (evaluate tree).Nests)
    (body index first last : Expr) :
    (evaluateSum controller evaluate body index first last).Nests := by
  unfold evaluateSum
  split
  · exact .make _
  · refine .bind (evaluates _) fun _ => .bind (evaluates _) fun _ => ?_
    split
    · exact .pure _
    · exact .inFrame (sumTerms_nests evaluates _ _ _ _ _)
    · exact .make _

theorem evaluateFor_nests (evaluates : ∀ tree, (evaluate tree).Nests) (fuel : Nat)
    (start test step body : Expr) :
    (evaluateFor controller fuel evaluate start test step body).Nests := by
  refine .inFrame (.bind (evaluates _) fun started => ?_)
  split
  · exact .pure _
  · exact startLoop_nests evaluates _ _ _ _

theorem guardLoop_nests {construct : Construct} {node : Expr} {loop : Evaluation Expr}
    (nests : loop.Nests) : (guardLoop controller construct node loop).Nests := by
  unfold guardLoop
  split
  · exact nests
  · exact .bind (.note rfl) fun _ => .pure _

/-- One level of evaluation nests over evaluations that do. -/
theorem evaluateNode_nests (evaluates : ∀ tree, (evaluate tree).Nests) (fuel : Nat)
    (tree : Expr) : (evaluateNode controller fuel evaluate tree).Nests := by
  unfold evaluateNode
  split
  · exact resolve_nests evaluates _ _
  · exact .pure _
  · exact .pure _
  · exact .pure _
  · exact .pure _
  · exact .pure _
  · exact .bind (.forEach evaluates _) fun _ => .make _
  · exact .bind (evaluates _) fun _ => .ofTraced neg_nests
  · exact .bind (evaluates _) fun _ => .marking _
  · exact .bind (evaluates _) fun _ => .bind (evaluates _) fun _ => .ofTraced arithmetic_nests
  · exact .bind (evaluates _) fun _ => .bind (evaluates _) fun _ => .marking _
  · refine .bind (evaluates _) fun first => ?_
    split
    · exact .pure _
    · exact .bind (evaluates _) fun _ => .marking _
  · exact .bind (evaluates _) fun _ => applyFunctionWith_nests _ _
  · exact evaluateDerivative_nests evaluates _ _
  · exact evaluateSolution_nests evaluates _ _
  · exact .bind (evaluates _) fun _ => .bind (evaluates _) fun _ => applyFunctionWith_nests _ _
  · exact evaluateConditional_nests evaluates _ _ _
  · exact guardLoop_nests (startLoop_nests evaluates _ _ _ _)
  · exact guardLoop_nests (evaluateFor_nests evaluates _ _ _ _ _)
  · exact guardLoop_nests (evaluateSum_nests evaluates _ _ _ _)
  · exact .bind (evaluates _) fun _ => .bind (.isStopped _) fun _ =>
      .ofTraced (pauseFor_nests _ _ _)
  · exact .bind (evaluates _) fun _ => .bind (.changeScope _) fun _ => .pure _
  · exact .make _

/-- The steps of an evaluation match like brackets. -/
theorem evaluateTo_nests (fuel : Nat) (tree : Expr) : (evaluateTo controller fuel tree).Nests := by
  induction fuel generalizing tree with
  | zero => exact .unfinished
  | succ fuel ih => exact evaluateNode_nests ih fuel tree

theorem evaluate?_nests {fuel : Nat} {scope : Scope} {random : RandomSource} {marks : Nat}
    {tree value : Expr} {state : EvalState}
    (returns : evaluate? fuel controller scope random marks tree = some (value, state)) :
    Bracketed state.trace := by
  obtain ⟨taken, nested, steps⟩ := evaluateTo_nests fuel tree _ _ _ returns
  rw [EvalState.trace, steps, EvalState.start, List.append_nil, List.reverse_reverse]
  exact nested

end Expr

end SymbolicAlgebra
