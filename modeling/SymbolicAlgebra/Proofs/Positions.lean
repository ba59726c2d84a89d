import Mathlib.Data.Set.Card
import SymbolicAlgebra.Proofs.Unmarked

/-!
# Positions in trees

A position is the way from the root to a node, given by the numbers of the
children that lie on it.  The list of all subtrees holds the node at each
position once, so the subtrees that pass a test are as many as the positions
whose node passes it.
-/

namespace SymbolicAlgebra

namespace Expr

variable {tree node : Expr} {trees : List Expr} {test : Expr → Bool}

/-- The node at a position. -/
def nodeAt? (tree : Expr) : List Nat → Option Expr
  | [] => some tree
  | index :: rest => tree.children[index]?.bind fun child => child.nodeAt? rest

theorem mem_subtrees_iff_nodeAt? :
    node ∈ tree.subtrees ↔ ∃ position, tree.nodeAt? position = some node := by
  induction tree using induction_children with
  | leaf tree isLeaf =>
      rw [mem_subtrees_iff, children_leaf isLeaf]
      constructor
      · rintro (rfl | ⟨child, member, _⟩)
        · exact ⟨[], rfl⟩
        · exact absurd member List.not_mem_nil
      · rintro ⟨position, found⟩
        cases position with
        | nil => exact .inl (Option.some.inj found).symm
        | cons index rest => simp [nodeAt?, children_leaf isLeaf] at found
  | node tree inner ih =>
      rw [mem_subtrees_iff]
      constructor
      · rintro (rfl | ⟨child, member, below⟩)
        · exact ⟨[], rfl⟩
        · obtain ⟨rest, found⟩ := (ih child member).mp below
          obtain ⟨index, inPlace⟩ := List.mem_iff_getElem?.mp member
          exact ⟨index :: rest, by rw [nodeAt?, inPlace, Option.bind_some, found]⟩
      · rintro ⟨position, found⟩
        cases position with
        | nil => exact .inl (Option.some.inj found).symm
        | cons index rest =>
            obtain ⟨child, inPlace, below⟩ := Option.bind_eq_some_iff.mp found
            have member := List.mem_iff_getElem?.mpr ⟨index, inPlace⟩
            exact .inr ⟨child, member, (ih child member).mpr ⟨rest, below⟩⟩

/-! ## Counting positions -/

/-- The positions whose node passes a test. -/
def passing (test : Expr → Bool) (tree : Expr) : Set (List Nat) :=
  {position | (tree.nodeAt? position).any test = true}

/-- The positions in a list of trees whose node passes a test; the number of the
tree comes first. -/
def passingAmong (test : Expr → Bool) (trees : List Expr) : Set (Nat × List Nat) :=
  {place | (trees[place.1]?.bind fun tree => tree.nodeAt? place.2).any test = true}

theorem passingAmong_cons :
    passingAmong test (tree :: trees) =
      Prod.mk 0 '' passing test tree ∪ Prod.map (· + 1) id '' passingAmong test trees := by
  ext ⟨index, rest⟩
  cases index with
  | zero => simp [passingAmong, passing]
  | succ index => simp [passingAmong]

theorem passing_eq :
    passing test tree =
      {position | position = [] ∧ test tree = true} ∪
        (fun place => place.1 :: place.2) '' passingAmong test tree.children := by
  ext position
  cases position with
  | nil => simp [passing, nodeAt?]
  | cons index rest => simp [passing, passingAmong, nodeAt?]

theorem countP_subtrees :
    tree.subtrees.countP test =
      (if test tree then 1 else 0) +
        (tree.children.map fun child => child.subtrees.countP test).sum := by
  by_cases isLeaf : tree.isLeaf = true
  · simp [subtrees, fold_leaf isLeaf, children_leaf isLeaf]
  · rw [subtrees, fold_node (by simpa using isLeaf)]
    simp [List.countP_flatten, Function.comp_def, Nat.add_comm]

theorem encard_passingAmong
    (each : ∀ tree ∈ trees, (passing test tree).encard = tree.subtrees.countP test) :
    (passingAmong test trees).encard =
      ((trees.map fun tree => tree.subtrees.countP test).sum : Nat) := by
  induction trees with
  | nil => simp [passingAmong]
  | cons tree trees ih =>
      have first := each tree List.mem_cons_self
      have rest := ih fun tree member => each tree (List.mem_cons_of_mem _ member)
      have apart : Disjoint (Prod.mk 0 '' passing test tree)
          (Prod.map (· + 1) id '' passingAmong test trees) := by
        rw [Set.disjoint_left]
        rintro _ ⟨position, _, rfl⟩ ⟨place, _, same⟩
        exact absurd (congrArg Prod.fst same) (Nat.succ_ne_zero place.1)
      have shifted : Function.Injective (Prod.map (· + 1) id : Nat × List Nat → Nat × List Nat) :=
        (add_left_injective 1).prodMap Function.injective_id
      rw [passingAmong_cons, Set.encard_union_eq apart, (Prod.mk_right_injective 0).encard_image,
        shifted.encard_image, first, rest, List.map_cons, List.sum_cons, Nat.cast_add]

/-- As many subtrees pass a test as there are positions whose node passes it. -/
theorem encard_passing : (passing test tree).encard = tree.subtrees.countP test := by
  induction tree using induction_children with
  | leaf tree isLeaf =>
      rw [passing_eq, countP_subtrees, children_leaf isLeaf]
      by_cases passes : test tree = true <;> simp [passes, passingAmong]
  | node tree inner ih =>
      -- The node itself is at the empty position, all others are below a child.
      have apart : Disjoint {position | position = [] ∧ test tree = true}
          ((fun place => place.1 :: place.2) '' passingAmong test tree.children) := by
        rw [Set.disjoint_left]
        rintro _ ⟨rfl, _⟩ ⟨place, _, same⟩
        cases same
      have joined : Function.Injective fun place : Nat × List Nat => place.1 :: place.2 := by
        rintro ⟨first, rest⟩ ⟨other, others⟩ same
        simpa using same
      rw [passing_eq, Set.encard_union_eq apart, joined.encard_image, encard_passingAmong ih,
        countP_subtrees, Nat.cast_add]
      by_cases passes : test tree = true <;> simp [passes]

end Expr

end SymbolicAlgebra
