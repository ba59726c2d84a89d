import SymbolicAlgebra.Proofs.Pieces
import SymbolicAlgebra.Proofs.Simplification

/-!
# Concatenations

Texts and variables joined by `+` are read from left to right by evaluation in a
scope that binds all variables to texts.  Simplification joins texts that stand
alone, but collects all else like the terms of a sum: texts come first and
variables after them, each in ascending order.

So a concatenation of different pieces keeps its text when the pieces stand in
this order already, and otherwise has the text of the pieces in this order.
-/

namespace SymbolicAlgebra

open TermKey

/-! ## Reading in a scope -/

/-- The scope binds the variables among some pieces to the texts that they stand
for. -/
def Scope.BindsTexts (scope : Scope) (binding : String → String) (keys : List TermKey) : Prop :=
  ∀ name, .var name ∈ keys → ∃ mark, scope.lookup? name = some (.text (binding name) mark)

namespace Expr

variable {tree left right : Expr} {name : String} {binding : String → String}
  {scope : Scope} {controller : Option Controller} {fuel : Nat} {allowed : Step → Prop}

/-- Two texts are joined by the rule for texts. -/
theorem arithmetic_texts (first second : String) (inner outer : Mark) :
    (arithmetic .add (.text first inner) (.text second outer)).Ensures allowed
      fun result => ∃ mark, result = .text (first ++ second) mark := by
  obtain ⟨depth, engine⟩ :=
    arithmetic_eq_applyBinary .add (.text first inner) (.text second outer)
  rw [engine]
  have joins : (combine (Kernel.ofDepth depth) .add (.text first inner)
      (.text second outer)).Succeeds allowed fun result =>
        ∃ mark, result = .text (first ++ second) mark := by
    refine .failure_orElse rfl (.failure_orElse rfl (.failure_orElse rfl (.orElse ?_)))
    exact .lift (.make fun mark => ⟨mark, rfl⟩)
  exact joins.run_match fun result holds => .pure holds

/-- A variable bound to a constant is resolved to it. -/
theorem resolve_constant {evaluate : Expr → Evaluation Expr} {value : Expr} {mark : Mark}
    (looked : scope.lookup? name = some value) (constant : value.isConstant = true) :
    (resolve evaluate (.var name mark) name).Finishes allowed scope (· = value) := by
  intro state inScope
  simp only [Scope.lookup?, Scope.lookupWithOuter?, Option.map_map, Option.map_eq_some_iff]
    at looked
  obtain ⟨⟨frames, bound, outer⟩, split, rfl⟩ := looked
  have final : bound.isConstant = true := constant
  refine ⟨_, state, [], ?_, inScope, rfl, fun _ => rfl⟩
  simp [resolve, inScope, split, final]

/-- Evaluation reads a concatenation from left to right. -/
theorem IsConcatenation.evaluateTo_spelled (joins : tree.IsConcatenation)
    (binds : scope.BindsTexts binding tree.addendKeys) (enough : tree.size ≤ fuel) :
    (evaluateTo controller fuel tree).Finishes allowed scope
      fun result => ∃ mark, result = .text (spelled binding tree.addendKeys) mark := by
  induction joins generalizing fuel with
  | piece isPiece =>
      obtain ⟨fuel, rfl⟩ := fuel_eq_succ enough
      cases isPiece with
      | text value mark =>
          refine .pure ⟨mark, ?_⟩
          simp [spelled, addendKeys, addends, ofFactor, spelling]
      | var name mark =>
          obtain ⟨inner, looked⟩ := binds name (by simp [addendKeys, addends, ofFactor])
          refine (resolve_constant looked rfl).mono fun result same => ⟨inner, ?_⟩
          simp [same, spelled, addendKeys, addends, ofFactor, spelling]
  | @add left right mark _ _ leftIH rightIH =>
      obtain ⟨fuel, rfl⟩ := fuel_eq_succ enough
      rw [size_arith] at enough
      rw [addendKeys_add] at binds
      have leftReads := leftIH (fun name member => binds name (List.mem_append_left _ member))
        (show left.size ≤ fuel by omega)
      have rightReads := rightIH (fun name member => binds name (List.mem_append_right _ member))
        (show right.size ≤ fuel by omega)
      rw [addendKeys_add, spelled_append]
      refine .ofTraced₂ leftReads rightReads ?_
      rintro _ _ ⟨inner, rfl⟩ ⟨outer, rfl⟩
      exact arithmetic_texts _ _ inner outer

end Expr

/-! ## Adding concatenations -/

namespace Expr

section Rules

variable {kernel : Kernel} {allowed : Step → Prop} {tree left right : Expr}

theorem IsConcatenation.isError (joins : tree.IsConcatenation) : tree.isError = false := by
  rcases joins with (_ | _) | _ <;> rfl

theorem IsConcatenation.toNumber? (joins : tree.IsConcatenation) : tree.toNumber? = none := by
  rcases joins with (_ | _) | _ <;> rfl

theorem IsConcatenation.asArray? (joins : tree.IsConcatenation) : tree.asArray? = none := by
  rcases joins with (_ | _) | _ <;> rfl

theorem IsConcatenation.isZero (joins : tree.IsConcatenation) : tree.isZero = false := by
  rcases joins with (_ | _) | _ <;> rfl

theorem IsConcatenation.isNumber (joins : tree.IsConcatenation) : tree.isNumber = false := by
  rcases joins with (_ | _) | _ <;> rfl

theorem IsConcatenation.splitCoefficient (joins : tree.IsConcatenation) :
    splitCoefficient tree = pure (.int 1, tree) := by
  rcases joins with (_ | _) | _ <;> rfl

theorem IsConcatenation.negated (joins : tree.IsConcatenation) :
    negated kernel tree = failure := by
  rcases joins with (_ | _) | _ <;> rfl

theorem IsConcatenation.eq_text_of_isConstant (joins : tree.IsConcatenation)
    (constant : tree.isConstant = true) : ∃ value mark, tree = .text value mark := by
  rcases joins with (⟨value, mark⟩ | _) | _
  · exact ⟨value, mark, rfl⟩
  · cases constant
  · cases constant

/-- No identity of addition applies to different concatenations. -/
theorem addIdentities_fails (leftJoins : left.IsConcatenation) (rightJoins : right.IsConcatenation)
    (different : (left == right) = false) :
    (addIdentities kernel left right).Ensures allowed fun _ => False := by
  have unlike : (likeTerms kernel false left right).Ensures allowed fun _ => False := by
    unfold likeTerms
    rw [leftJoins.splitCoefficient, rightJoins.splitCoefficient]
    refine .bind (.lift (.ofMarking (.pure rfl))) ?_
    rintro _ rfl
    refine .bind (.lift (.ofMarking (.pure rfl))) ?_
    rintro _ rfl
    simp only [leftJoins.isNumber, bne, different]
    exact .failure
  rw [addIdentities, leftJoins.isZero, rightJoins.isZero, if_neg Bool.false_ne_true,
    if_neg Bool.false_ne_true, leftJoins.negated, rightJoins.negated]
  have unsigned : (failure : Rule Expr).Ensures allowed fun _ => False := .failure
  refine .orElse unlike (.orElse ?_ ?_)
  · exact unsigned.bind_none
  · exact unsigned.bind_none

/-- No rule applies to different concatenations unless both are texts. -/
theorem combine_fails (leftJoins : left.IsConcatenation) (rightJoins : right.IsConcatenation)
    (notTexts : ¬(left.isConstant = true ∧ right.isConstant = true))
    (different : (left == right) = false) :
    (combine kernel .add left right).Ensures allowed fun _ => False := by
  refine .orElse ?_ (.orElse ?_ (.orElse ?_ (.orElse ?_ ?_)))
  · rw [firstError?, leftJoins.isError, rightJoins.isError]
    exact .failure
  · rw [numericRule, leftJoins.toNumber?]
    exact .failure
  · rw [arrayRule, leftJoins.asArray?, rightJoins.asArray?]
    exact .failure
  · unfold textRule
    split
    · exact absurd ⟨rfl, rfl⟩ notTexts
    · rw [if_neg]
      · exact .failure
      · simp only [Bool.and_eq_true, and_assoc]
        exact fun holds => notTexts holds.2
  · exact addIdentities_fails leftJoins rightJoins different

theorem fillAdditive_concatenation (joins : tree.IsConcatenation) (terms : Terms) :
    (fillAdditive tree terms).Ensures allowed (· = ⟨terms.up ++ tree.addends, terms.down⟩) := by
  induction joins generalizing terms with
  | piece isPiece => cases isPiece <;> exact .pure rfl
  | add _ _ leftIH rightIH =>
      refine .bind (leftIH terms) ?_
      rintro _ rfl
      refine (rightIH _).mono ?_
      rintro _ rfl
      simp [addends]

theorem collectOrBuild_concatenations (leftJoins : left.IsConcatenation)
    (rightJoins : right.IsConcatenation) (distinct : (left.addendKeys ++ right.addendKeys).Nodup) :
    (collectOrBuild kernel .add left right).Ensures allowed
      (ReadsInOrder (left.addendKeys ++ right.addendKeys)) := by
  have pieces : DistinctPieces (left.addends ++ right.addends) := by
    refine ⟨fun term member => ?_, ?_⟩
    · rcases List.mem_append.mp member with inLeft | inRight
      · exact leftJoins.isPiece_of_mem inLeft
      · exact rightJoins.isPiece_of_mem inRight
    · rwa [List.map_append]
  have leftPositive := List.length_pos_iff.mpr leftJoins.addends_ne_nil
  have rightPositive := List.length_pos_iff.mpr rightJoins.addends_ne_nil
  have enough : Chain.additive.shouldCollect (left.addends ++ right.addends).length 0 = true := by
    simp only [Chain.shouldCollect, List.length_append, Bool.or_eq_true, decide_eq_true_eq,
      beq_iff_eq]
    omega
  have filled : (fillOperands .additive .add left right .empty).Ensures allowed
      (· = ⟨left.addends ++ right.addends, []⟩) := by
    refine .bind (fillAdditive_concatenation leftJoins .empty) ?_
    rintro _ rfl
    exact fillAdditive_concatenation rightJoins _
  refine collectFilled_ensures filled ?_
  rintro _ rfl
  rw [List.length_nil, enough, if_pos rfl]
  rw [addendKeys, addendKeys, ← List.map_append]
  exact collect_pieces pieces (List.append_ne_nil_of_left_ne_nil leftJoins.addends_ne_nil _)

theorem IsConcatenation.addendKeys_eq_of_agree (joins : left.IsConcatenation)
    (equal : agree left right = true) : left.addendKeys = right.addendKeys := by
  induction joins generalizing right with
  | piece isPiece =>
      cases isPiece with
      | text value mark =>
          cases right <;> first
            | cases equal
            | simpa [agree, Expr.addendKeys, addends, ofFactor] using equal
      | var name mark =>
          cases right <;> first
            | cases equal
            | simpa [agree, Expr.addendKeys, addends, ofFactor] using equal
  | add _ _ leftIH rightIH =>
      cases right with
      | arith op first second mark =>
          obtain ⟨rfl, firstEqual, secondEqual⟩ := agree_arith.mp equal
          rw [addendKeys_add, addendKeys_add, leftIH firstEqual, rightIH secondEqual]
      | _ => cases equal

/-- Concatenations without common pieces are different. -/
theorem IsConcatenation.beq_eq_false (joins : left.IsConcatenation)
    (distinct : (left.addendKeys ++ right.addendKeys).Nodup) : (left == right) = false := by
  rw [Bool.eq_false_iff]
  intro equal
  rw [← joins.addendKeys_eq_of_agree equal] at distinct
  have disjoint := (List.nodup_append'.mp distinct).2.2
  have nonempty : left.addendKeys ≠ [] := by
    simpa [Expr.addendKeys] using joins.addends_ne_nil
  exact disjoint (List.head_mem nonempty) (List.head_mem nonempty)

/-- Adding two concatenations puts the pieces of both in order. -/
theorem add_readsInOrder {lefts rights : List TermKey} (leftReads : ReadsInOrder lefts left)
    (rightReads : ReadsInOrder rights right) (distinct : (joinPieces lefts rights).Nodup) :
    (arithmetic .add left right).Ensures allowed (ReadsInOrder (joinPieces lefts rights)) := by
  have leftJoins := leftReads.isConcatenation
  have rightJoins := rightReads.isConcatenation
  by_cases texts : left.isConstant = true ∧ right.isConstant = true
  · obtain ⟨first, inner, rfl⟩ := leftJoins.eq_text_of_isConstant texts.1
    obtain ⟨second, outer, rfl⟩ := rightJoins.eq_text_of_isConstant texts.2
    obtain rfl := List.singleton_perm.mp leftReads.perm
    obtain rfl := List.singleton_perm.mp rightReads.perm
    refine (arithmetic_texts first second inner outer).mono ?_
    rintro _ ⟨mark, rfl⟩
    exact ⟨.piece (.text _ mark), .refl _, List.pairwise_singleton _ _⟩
  · -- Two single texts are the only pieces that become one, and here one is no text.
    have joined : joinPieces lefts rights = lefts ++ rights := by
      rcases joinPieces_cases lefts rights with ⟨first, second, rfl, rfl, _⟩ | joined
      · obtain ⟨inner, rfl⟩ := leftJoins.eq_text (List.perm_singleton.mp leftReads.perm)
        obtain ⟨outer, rfl⟩ := rightJoins.eq_text (List.perm_singleton.mp rightReads.perm)
        exact absurd ⟨rfl, rfl⟩ texts
      · exact joined
    rw [joined] at distinct ⊢
    have perm := leftReads.perm.append rightReads.perm
    have distinctKeys := perm.nodup_iff.mpr distinct
    obtain ⟨depth, engine⟩ := arithmetic_eq_applyBinary .add left right
    rw [engine]
    have different := leftJoins.beq_eq_false distinctKeys
    refine (combine_fails leftJoins rightJoins texts different).run_none ?_
    exact (collectOrBuild_concatenations leftJoins rightJoins distinctKeys).mono
      fun _ reads => ⟨reads.isConcatenation, reads.perm.trans perm, reads.ordered⟩

end Rules

/-! ## Simplification of concatenations -/

variable {tree left right : Expr} {controller : Option Controller} {fuel : Nat}
  {allowed : Step → Prop}

theorem nodup_of_joinPieces {lefts rights : List TermKey}
    (distinct : (joinPieces lefts rights).Nodup) : lefts.Nodup ∧ rights.Nodup := by
  rcases joinPieces_cases lefts rights with ⟨first, second, rfl, rfl, _⟩ | joined
  · exact ⟨List.nodup_singleton _, List.nodup_singleton _⟩
  · rw [joined] at distinct
    exact ⟨distinct.of_append_left, distinct.of_append_right⟩

/-- Simplification puts the pieces of a concatenation in order. -/
theorem IsConcatenation.evaluateTo_readsInOrder (joins : tree.IsConcatenation)
    (distinct : tree.pieces.Nodup) (enough : tree.size ≤ fuel) :
    (evaluateTo controller fuel tree).Finishes allowed .empty (ReadsInOrder tree.pieces) := by
  induction joins generalizing fuel with
  | @piece tree isPiece =>
      have isLeaf : tree.isLeaf = true := by
        cases isPiece <;> rfl
      apply evaluateTo_leaf isLeaf enough
      refine ⟨.piece isPiece, ?_, ?_⟩
      · rw [isPiece.addendKeys, isPiece.pieces]
      · rw [isPiece.addendKeys]
        exact List.pairwise_singleton _ _
  | @add left right mark _ _ leftIH rightIH =>
      obtain ⟨fuel, rfl⟩ := fuel_eq_succ enough
      rw [size_arith] at enough
      have ⟨leftDistinct, rightDistinct⟩ := nodup_of_joinPieces distinct
      have leftReads := leftIH leftDistinct (show left.size ≤ fuel by omega)
      have rightReads := rightIH rightDistinct (show right.size ≤ fuel by omega)
      exact .ofTraced₂ leftReads rightReads fun _ _ firstReads secondReads =>
        add_readsInOrder firstReads secondReads distinct

/-- An evaluation of a concatenation gives the text that it spells. -/
theorem IsConcatenation.evaluate?_spelled (joins : tree.IsConcatenation) {scope : Scope}
    {binding : String → String} (binds : scope.BindsTexts binding tree.addendKeys)
    (enough : tree.size ≤ fuel) (random : RandomSource) (marks : Nat) :
    ∃ mark state, evaluate? fuel controller scope random marks tree =
      some (.text (spelled binding tree.addendKeys) mark, state) := by
  have finishes : (evaluateTo controller fuel tree).Finishes (fun _ => True) scope _ :=
    joins.evaluateTo_spelled binds enough
  obtain ⟨_, state, _, run, _, _, holds⟩ := finishes (.start scope random marks) rfl
  obtain ⟨mark, rfl⟩ := holds fun _ _ => trivial
  exact ⟨mark, state, run⟩

end Expr

/-- Evaluation reads a concatenation from left to right, and its simplified form
reads the same pieces in ascending order, texts before variables, as long as no
piece is there twice.  So the two texts are the same in every scope when the pieces
stand in this order already. -/
theorem simplified_concatenation_reads_in_order (tree : Expr) (joins : tree.IsConcatenation)
    (distinct : tree.pieces.Nodup) (fuel : Nat) (enough : tree.size ≤ fuel)
    (controller : Option Controller) (random : RandomSource) (marks : Nat) :
    ∃ result state ordered,
      Expr.simplify? fuel controller random marks tree = some (result, state) ∧
      ordered.Perm tree.pieces ∧ ordered.Pairwise ReadBefore ∧
      (tree.pieces.Pairwise ReadBefore → ordered = tree.pieces) ∧
      ∀ (scope : Scope) (binding : String → String),
        (∀ name ∈ tree.occurrences, ∃ mark, scope.lookup? name = some (.text (binding name) mark)) →
        ∀ (later : Nat) (observer : Option Controller) (source : RandomSource) (start : Nat),
          (tree.size ≤ later → ∃ mark next,
            Expr.evaluate? later observer scope source start tree =
              some (.text (Expr.spelled binding tree.pieces) mark, next)) ∧
          (result.size ≤ later → ∃ mark next,
            Expr.evaluate? later observer scope source start result =
              some (.text (Expr.spelled binding ordered) mark, next)) := by
  have finishes : (Expr.evaluateTo controller fuel tree).Finishes (fun _ => True) .empty _ :=
    joins.evaluateTo_readsInOrder distinct enough
  obtain ⟨result, state, run, holds⟩ := finishes.simplify? random marks
  have reads := holds fun _ _ => trivial
  refine ⟨result, state, result.addendKeys, run, reads.perm, reads.ordered, ?_, ?_⟩
  · intro inOrder
    refine reads.perm.eq_of_pairwise ?_ reads.ordered inOrder
    exact fun first second _ _ before after => absurd after before.asymm
  · intro scope binding bound later observer source start
    have binds : scope.BindsTexts binding tree.addendKeys :=
      fun name member => bound name (joins.mem_occurrences_iff.mpr member)
    constructor
    · intro enoughLater
      rw [joins.spelled_pieces]
      exact joins.evaluate?_spelled binds enoughLater source start
    · intro enoughLater
      apply reads.isConcatenation.evaluate?_spelled _ enoughLater source start
      intro name member
      exact binds name (joins.var_mem_pieces_iff.mp (reads.perm.mem_iff.mp member))

/-- The pieces of `("a" + "b") + (x + y)` stand in order, so the text is kept. -/
theorem ordered_concatenation_keeps_its_text :
    let tree : Expr := .arith .add (.arith .add (.text "a") (.text "b"))
      (.arith .add (.var "x") (.var "y"))
    let scope := Scope.ofBindings [("x", .text "1"), ("y", .text "2")]
    (∃ mark next, Expr.evaluate? 7 none scope (.ofSeed 1) 0 tree =
      some (.text "ab12" mark, next)) ∧
    ∃ result state, Expr.simplify? 7 none (.ofSeed 1) 0 tree = some (result, state) ∧
      ∃ mark next, Expr.evaluate? result.size none scope (.ofSeed 1) 0 result =
        some (.text "ab12" mark, next) := by
  intro tree scope
  have joins : tree.IsConcatenation :=
    .add (.add (.piece (.text "a" _)) (.piece (.text "b" _)))
      (.add (.piece (.var "x" _)) (.piece (.var "y" _)))
  have bound : ∀ name ∈ tree.occurrences, ∃ mark,
      scope.lookup? name = some (.text (if name = "x" then "1" else "2") mark) := by
    intro name member
    have occurring : tree.occurrences = ["x", "y"] := by decide +kernel
    rw [occurring, List.mem_pair] at member
    rcases member with rfl | rfl
    · exact ⟨_, rfl⟩
    · exact ⟨_, rfl⟩
  obtain ⟨result, state, ordered, run, _, _, same, reads⟩ :=
    simplified_concatenation_reads_in_order tree joins (by decide +kernel) 7 (by decide +kernel)
      none (.ofSeed 1) 0
  obtain rfl := same (by decide +kernel)
  have spells :
      Expr.spelled (fun name => if name = "x" then "1" else "2") tree.pieces = "ab12" := by
    decide +kernel
  have first := (reads scope _ bound 7 none (.ofSeed 1) 0).1 (by decide +kernel)
  have second := (reads scope _ bound result.size none (.ofSeed 1) 0).2 (Nat.le_refl _)
  rw [spells] at first second
  exact ⟨first, result, state, run, second⟩

/-- Simplification turns `x + "b"` into `"b" + x`, which reads otherwise. -/
theorem simplified_concatenation_reads_otherwise :
    let tree : Expr := .arith .add (.var "x") (.text "b")
    let scope := Scope.ofBindings [("x", .text "a")]
    (Expr.evaluate? 3 none scope (.ofSeed 1) 0 tree).bind (·.1.asText?) = some "ab" ∧
    ((Expr.simplify? 3 none (.ofSeed 1) 0 tree).bind fun simplified =>
      (Expr.evaluate? 3 none scope (.ofSeed 1) 0 simplified.1).bind (·.1.asText?)) =
        some "ba" := by
  decide +kernel

end SymbolicAlgebra
