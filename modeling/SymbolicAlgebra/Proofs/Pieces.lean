import SymbolicAlgebra.Expr.Variables
import SymbolicAlgebra.Proofs.Soundness.Engine
import SymbolicAlgebra.Proofs.TermMerging

/-!
# Pieces of concatenations

Texts and variables that are joined by `+` are collected like the terms of a sum.
Collection sorts them by their keys and reads the result from its end: texts come
first and variables after them, each in ascending order.  Pieces of different keys
are not merged, and none of them changes sides.
-/

namespace SymbolicAlgebra

namespace TermKey

/-- What a piece of a concatenation reads as when variables stand for texts. -/
def spelling (binding : String → String) : TermKey → String
  | var name => binding name
  | text value => value
  | _ => ""

end TermKey

open TermKey

/-! ## Concatenations and their pieces -/

namespace Expr

/-- A text or a variable. -/
inductive IsPiece : Expr → Prop where
  | text (value : String) (mark : Mark) : IsPiece (.text value mark)
  | var (name : String) (mark : Mark) : IsPiece (.var name mark)

/-- Texts and variables joined by `+`. -/
inductive IsConcatenation : Expr → Prop where
  | piece {tree : Expr} (isPiece : IsPiece tree) : IsConcatenation tree
  | add {left right : Expr} {mark : Mark} (leftJoins : IsConcatenation left)
      (rightJoins : IsConcatenation right) : IsConcatenation (.arith .add left right mark)

/-- The terms of a sum, from left to right. -/
def addends : Expr → List Expr
  | .arith .add left right _ => left.addends ++ right.addends
  | term => [term]

/-- The keys of the terms of a sum. -/
def addendKeys (tree : Expr) : List TermKey := tree.addends.map TermKey.ofFactor

/-- The pieces of two parts of a concatenation together.  Texts without variables
around them are one piece. -/
def joinPieces : List TermKey → List TermKey → List TermKey
  | [.text first], [.text second] => [.text (first ++ second)]
  | lefts, rights => lefts ++ rights

/-- The pieces that a concatenation is put together from. -/
def pieces : Expr → List TermKey
  | .arith .add left right _ => joinPieces left.pieces right.pieces
  | leaf => [TermKey.ofFactor leaf]

/-- The text that some pieces read as. -/
def spelled (binding : String → String) (keys : List TermKey) : String :=
  String.join (keys.map (spelling binding))

variable {tree left right term : Expr} {mark : Mark} {name : String}
  {binding : String → String}

theorem joinPieces_cases (lefts rights : List TermKey) :
    (∃ first second, lefts = [.text first] ∧ rights = [.text second] ∧
      joinPieces lefts rights = [.text (first ++ second)]) ∨
    joinPieces lefts rights = lefts ++ rights := by
  unfold joinPieces
  split
  · exact .inl ⟨_, _, rfl, rfl, rfl⟩
  · exact .inr rfl

theorem addendKeys_add :
    (Expr.arith .add left right mark).addendKeys = left.addendKeys ++ right.addendKeys := by
  simp [addendKeys, addends]

theorem spelled_append (lefts rights : List TermKey) :
    spelled binding (lefts ++ rights) = spelled binding lefts ++ spelled binding rights := by
  simp [spelled]

theorem spelled_joinPieces (lefts rights : List TermKey) :
    spelled binding (joinPieces lefts rights) =
      spelled binding lefts ++ spelled binding rights := by
  rcases joinPieces_cases lefts rights with ⟨first, second, rfl, rfl, joined⟩ | joined
  · rw [joined]
    simp [spelled, spelling]
  · rw [joined, spelled_append]

theorem IsPiece.addends (isPiece : tree.IsPiece) : tree.addends = [tree] := by
  cases isPiece <;> rfl

theorem IsPiece.addendKeys (isPiece : tree.IsPiece) :
    tree.addendKeys = [TermKey.ofFactor tree] := by
  rw [Expr.addendKeys, isPiece.addends, List.map_singleton]

theorem IsPiece.pieces (isPiece : tree.IsPiece) : tree.pieces = [TermKey.ofFactor tree] := by
  cases isPiece <;> rfl

/-- Joining texts does not change what is read. -/
theorem IsConcatenation.spelled_pieces (joins : tree.IsConcatenation) :
    spelled binding tree.pieces = spelled binding tree.addendKeys := by
  induction joins with
  | piece isPiece => rw [isPiece.pieces, isPiece.addendKeys]
  | add _ _ leftIH rightIH =>
      rw [Expr.pieces, spelled_joinPieces, addendKeys_add, spelled_append, leftIH, rightIH]

theorem IsConcatenation.addends_ne_nil (joins : tree.IsConcatenation) : tree.addends ≠ [] := by
  induction joins with
  | piece isPiece => cases isPiece <;> exact List.cons_ne_nil _ _
  | add _ _ leftIH _ => exact List.append_ne_nil_of_left_ne_nil leftIH _

theorem IsConcatenation.isPiece_of_mem (joins : tree.IsConcatenation)
    (member : term ∈ tree.addends) : term.IsPiece := by
  induction joins with
  | piece isPiece =>
      cases isPiece with
      | text value mark => exact List.mem_singleton.mp member ▸ .text value mark
      | var name mark => exact List.mem_singleton.mp member ▸ .var name mark
  | add _ _ leftIH rightIH =>
      rcases List.mem_append.mp member with inLeft | inRight
      · exact leftIH inLeft
      · exact rightIH inRight

/-- A concatenation of one piece is that piece. -/
theorem IsConcatenation.eq_text {value : String} (joins : tree.IsConcatenation)
    (single : tree.addendKeys = [.text value]) : ∃ mark, tree = .text value mark := by
  cases joins with
  | piece isPiece =>
      cases isPiece with
      | text other mark =>
          obtain rfl : other = value := by simpa [Expr.addendKeys, addends, ofFactor] using single
          exact ⟨mark, rfl⟩
      | var name mark => simp [Expr.addendKeys, addends, ofFactor] at single
  | @add left right _ leftJoins rightJoins =>
      have leftPositive := List.length_pos_iff.mpr leftJoins.addends_ne_nil
      have rightPositive := List.length_pos_iff.mpr rightJoins.addends_ne_nil
      have length := congrArg List.length single
      rw [addendKeys_add] at length
      simp only [Expr.addendKeys, List.length_append, List.length_map, List.length_singleton]
        at length
      omega

theorem IsConcatenation.mem_occurrences_iff (joins : tree.IsConcatenation) :
    name ∈ tree.occurrences ↔ .var name ∈ tree.addendKeys := by
  induction joins with
  | piece isPiece =>
      cases isPiece with
      | text value mark => simp [addendKeys, addends, ofFactor, occurrences, fold, asVar?]
      | var other mark => simp [addendKeys, addends, ofFactor]
  | add _ _ leftIH rightIH =>
      rw [occurrences_arith, addendKeys_add, List.mem_append, List.mem_append, leftIH, rightIH]

theorem IsConcatenation.var_mem_pieces_iff (joins : tree.IsConcatenation) :
    .var name ∈ tree.pieces ↔ .var name ∈ tree.addendKeys := by
  induction joins with
  | piece isPiece => rw [isPiece.pieces, isPiece.addendKeys]
  | @add left right _ _ _ leftIH rightIH =>
      rw [Expr.pieces, addendKeys_add, List.mem_append, ← leftIH, ← rightIH]
      rcases joinPieces_cases left.pieces right.pieces with
        ⟨first, second, lefts, rights, joined⟩ | joined
      · rw [joined, lefts, rights]
        simp
      · rw [joined, List.mem_append]

end Expr

/-! ## Collecting pieces -/

section Collecting

open SymbolicAlgebra.Expr

variable {kernel : Kernel} {allowed : Step → Prop} {term : Expr} {terms : List Expr}

theorem Expr.IsPiece.of_additive (isPiece : term.IsPiece) :
    TermKey.of .additive term = TermKey.ofFactor term := by
  cases isPiece <;> rfl

/-- The terms are texts and variables of different keys. -/
structure DistinctPieces (terms : List Expr) : Prop where
  isPiece : ∀ term ∈ terms, term.IsPiece
  distinct : (terms.map TermKey.ofFactor).Nodup

theorem DistinctPieces.perm {others : List Expr} (pieces : DistinctPieces terms)
    (perm : others.Perm terms) : DistinctPieces others :=
  ⟨fun term member => pieces.isPiece term (perm.mem_iff.mp member),
    (perm.map TermKey.ofFactor).nodup_iff.mpr pieces.distinct⟩

theorem map_key_pieces (isPiece : ∀ term ∈ terms, term.IsPiece) :
    terms.map (TermKey.of .additive) = terms.map TermKey.ofFactor :=
  List.map_congr_left fun term member => (isPiece term member).of_additive

theorem DistinctPieces.distinctKeys (pieces : DistinctPieces terms) :
    DistinctKeys .additive terms := by
  rw [DistinctKeys, map_key_pieces pieces.isPiece]
  exact pieces.distinct

/-- Different texts and variables are only sorted: none of them reads better on the other
side. -/
theorem settle_pieces (pieces : DistinctPieces terms) :
    (settle kernel .additive ⟨terms, []⟩).Ensures allowed
      (· = ⟨sortTerms .additive terms, []⟩) := by
  refine settle_distinct ?_ fun term member => ?_
  · rw [List.append_nil]
    exact pieces.distinctKeys
  · rw [List.append_nil] at member
    cases pieces.isPiece term member <;> rfl

/-- Read from the end, the sorted pieces come in the order of reading. -/
theorem DistinctPieces.readBefore (pieces : DistinctPieces terms) :
    ((sortTerms .additive terms).reverse.map TermKey.ofFactor).Pairwise ReadBefore := by
  have sorted := sortTerms_perm .additive terms
  rw [← map_key_pieces fun term member =>
    pieces.isPiece term (sorted.mem_iff.mp (List.mem_reverse.mp member))]
  exact pieces.distinctKeys.readBefore

/-! ### Folding -/

theorem foldBack_pieces {start : Expr} (joins : start.IsConcatenation)
    (isPiece : ∀ term ∈ terms, term.IsPiece) :
    (foldBack .add start terms).Ensures fun tree =>
      tree.IsConcatenation ∧ tree.addends = start.addends ++ terms.reverse := by
  induction terms with
  | nil => exact .pure ⟨joins, by simp⟩
  | cons term terms ih =>
      rw [List.forall_mem_cons] at isPiece
      refine .bind (ih isPiece.2) ?_
      rintro folded ⟨foldedJoins, addends⟩
      refine .make fun mark => ⟨.add foldedJoins (.piece isPiece.1), ?_⟩
      simp [withMark, Expr.addends, addends, isPiece.1.addends]

theorem foldAdditive_pieces (isPiece : ∀ term ∈ terms, term.IsPiece) (nonempty : terms ≠ []) :
    (foldAdditive ⟨terms, []⟩).Ensures fun tree =>
      tree.IsConcatenation ∧ tree.addends = terms.reverse := by
  have found := List.getLast?_eq_some_getLast nonempty
  have split := List.dropLast_append_getLast nonempty
  have lastPiece := isPiece _ (List.getLast_mem nonempty)
  have others (term : Expr) (member : term ∈ terms.dropLast) : term.IsPiece :=
    isPiece term (List.mem_of_mem_dropLast member)
  have folds : (foldReversed? .add terms).Ensures fun result => ∃ tree, result = some tree ∧
      tree.IsConcatenation ∧ tree.addends = terms.reverse := by
    rw [foldReversed?, found]
    refine .bind (foldBack_pieces (.piece lastPiece) others) fun tree holds =>
      .pure ⟨tree, rfl, holds.1, ?_⟩
    rw [holds.2, lastPiece.addends, ← List.reverse_singleton, ← List.reverse_append, split]
  refine .bind folds ?_
  rintro _ ⟨tree, rfl, holds⟩
  exact .pure holds

/-- The tree reads some pieces in order. -/
structure ReadsInOrder (keys : List TermKey) (tree : Expr) : Prop where
  isConcatenation : tree.IsConcatenation
  perm : tree.addendKeys.Perm keys
  ordered : tree.addendKeys.Pairwise ReadBefore

theorem collect_pieces (pieces : DistinctPieces terms) (nonempty : terms ≠ []) :
    (collect kernel .additive ⟨terms, []⟩).Ensures allowed
      (ReadsInOrder (terms.map TermKey.ofFactor)) := by
  refine collect_sum (settle_pieces pieces) ?_
  rintro _ rfl
  have sorted := sortTerms_perm .additive terms
  have sortedPieces := pieces.perm sorted
  have kept : (sortTerms .additive terms).filter (!Chain.additive.isNeutral ·) =
      sortTerms .additive terms := by
    refine List.filter_eq_self.mpr fun term member => ?_
    cases sortedPieces.isPiece term member <;> rfl
  have notEmpty : sortTerms .additive terms ≠ [] := by
    rintro none
    rw [none] at sorted
    exact nonempty sorted.nil_eq.symm
  simp only [kept, List.filter_nil]
  refine (foldAdditive_pieces sortedPieces.isPiece notEmpty).mono ?_
  rintro tree ⟨joins, addends⟩
  refine ⟨joins, ?_, ?_⟩
  · rw [addendKeys, addends]
    exact ((List.reverse_perm _).trans sorted).map _
  · rw [addendKeys, addends]
    exact pieces.readBefore

end Collecting

end SymbolicAlgebra
