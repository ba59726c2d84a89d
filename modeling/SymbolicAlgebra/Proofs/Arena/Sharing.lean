import SymbolicAlgebra.Proofs.Arena.Merging

/-!
# Shared wrappers

After merging, the first wrapper of an equal node counts the subtrees that equal it, and no
others are referred to.  So the first inner node of greatest depth to which several places refer
is a repeated subtree of greatest height, and there is none when nothing repeats.
-/

namespace SymbolicAlgebra

namespace Expr

/-- The number of subtrees equal to a given tree. -/
def references (tree subtree : Expr) : Nat := tree.subtrees.countP (· == subtree)

/-- The inner nodes that occur more than once. -/
def repeated (tree : Expr) : List Expr :=
  tree.subtrees.filter fun subtree => !subtree.isLeaf && 1 < tree.references subtree

theorem mem_repeated_iff_references {tree node : Expr} :
    node ∈ tree.repeated ↔
      node ∈ tree.subtrees ∧ node.isLeaf = false ∧ 1 < tree.references node := by
  simp [repeated]

end Expr

namespace Arena

variable {laid arena : Arena} {tree node : Expr} {index shared : Nat} {test : Expr → Bool}

/-- The nodes of the arena are the subtrees of the tree. -/
structure IsOf (laid : Arena) (tree : Expr) : Prop where
  laidOut : laid.LaidOut
  nodes : laid.nodes = tree.subtrees
  exact : tree.IsExact

theorem nodes_eq_map :
    laid.nodes = (List.range laid.size).map fun index => (laid.wrapper index).node := by
  refine List.ext_getElem? fun index => ?_
  by_cases inside : index < laid.size
  · rw [getElem?_nodes inside, List.getElem?_map, List.getElem?_range inside, Option.map_some]
  · rw [List.getElem?_eq_none (by rw [length_nodes]; omega), List.getElem?_eq_none]
    rw [List.length_map, List.length_range]
    omega

theorem countP_nodes : laid.nodes.countP test =
    Nat.count (fun index => test (laid.wrapper index).node = true) laid.size := by
  rw [nodes_eq_map, List.countP_map]
  induction laid.size with
  | zero => rfl
  | succ size ih =>
      rw [List.range_succ, List.countP_append, ih, Nat.count_succ, List.countP_singleton]
      rfl

theorem IsOf.mem_subtrees_iff (isOf : laid.IsOf tree) :
    node ∈ tree.subtrees ↔ ∃ index < laid.size, (laid.wrapper index).node = node := by
  rw [← isOf.nodes, nodes_eq_map]
  simp

theorem IsOf.isExact (isOf : laid.IsOf tree) (index : Nat) : (laid.wrapper index).node.IsExact := by
  by_cases inside : index < laid.size
  · have below := isOf.mem_subtrees_iff.mpr ⟨index, inside, rfl⟩
    exact fun leaf deeper => isOf.exact leaf (Expr.subtrees_subset_of_mem below deeper)
  · rw [wrapper_of_le (Nat.not_lt.mp inside)]
    intro leaf member number found
    cases List.mem_singleton.mp member
    cases found

/-- The first wrapper of an equal node counts the subtrees that equal it. -/
theorem IsOf.references_eq (isOf : laid.IsOf tree) (inside : index < laid.size)
    (isFirst : laid.firstEqual index = index) :
    (laid.mergeEqual.wrapper index).references = tree.references (laid.wrapper index).node := by
  have redirects := redirects_mergeEqual isOf.isExact isOf.laidOut
  have counted : ∀ other ∈ Finset.range laid.size, laid.firstEqual other = index ↔
      ((laid.wrapper other).node == (laid.wrapper index).node) = true := by
    intro other member
    have otherInside := Finset.mem_range.mp member
    rw [beq_iff isOf.isExact, ← firstEqual_eq_iff isOf.isExact otherInside inside, isFirst]
  rw [redirects.wrapper index inside, Expr.references, ← isOf.nodes, countP_nodes,
    Nat.count_eq_card_filter_range, Nat.count_eq_card_filter_range, Finset.filter_congr counted]

/-- To all others nothing refers. -/
theorem IsOf.references_eq_zero (isOf : laid.IsOf tree) (inside : index < laid.size)
    (notFirst : laid.firstEqual index ≠ index) :
    (laid.mergeEqual.wrapper index).references = 0 := by
  have redirects := redirects_mergeEqual isOf.isExact isOf.laidOut
  rw [redirects.wrapper index inside]
  rw [Nat.count_eq_card_filter_range, Finset.card_eq_zero, Finset.filter_eq_empty_iff]
  intro other member same
  have ⟨_, _, again⟩ := firstEqual_spec isOf.isExact (Finset.mem_range.mp member)
  exact notFirst (by rw [← same, again])

/-- Something refers twice to the inner node. -/
def isShared (arena : Arena) (index : Nat) : Bool :=
  1 < (arena.wrapper index).references && !(arena.wrapper index).node.isLeaf

theorem IsOf.isShared_iff (isOf : laid.IsOf tree) (inside : index < laid.size) :
    laid.mergeEqual.isShared index = true ↔
      laid.firstEqual index = index ∧ (laid.wrapper index).node ∈ tree.repeated := by
  have redirects := redirects_mergeEqual isOf.isExact isOf.laidOut
  have node : (laid.mergeEqual.wrapper index).node = (laid.wrapper index).node := by
    rw [redirects.wrapper index inside]
  have below := isOf.mem_subtrees_iff.mpr ⟨index, inside, rfl⟩
  rw [isShared, node, Bool.and_eq_true, decide_eq_true_iff, Bool.not_eq_true',
    Expr.mem_repeated_iff_references]
  by_cases isFirst : laid.firstEqual index = index
  · rw [isOf.references_eq inside isFirst]
    simp [isFirst, below, and_comm]
  · rw [isOf.references_eq_zero inside isFirst]
    simp [isFirst]

/-- A repeated subtree has a shared wrapper of its height. -/
theorem IsOf.exists_shared (isOf : laid.IsOf tree) (repeats : node ∈ tree.repeated) :
    ∃ index < laid.size, (laid.wrapper index).depth = node.height ∧
      laid.mergeEqual.isShared index = true := by
  have ⟨below, inner, several⟩ := Expr.mem_repeated_iff_references.mp repeats
  obtain ⟨other, otherInside, rfl⟩ := isOf.mem_subtrees_iff.mp below
  have ⟨inside, equal, isFirst⟩ := firstEqual_spec isOf.isExact otherInside
  have same := (beq_iff isOf.isExact).mp equal
  refine ⟨laid.firstEqual other, inside, ?_, (isOf.isShared_iff inside).mpr ⟨isFirst, ?_⟩⟩
  · rw [depth_eq_of_unmarked_eq isOf.laidOut same, isOf.laidOut.depth]
  · refine Expr.mem_repeated_iff_references.mpr ⟨isOf.mem_subtrees_iff.mpr ⟨_, inside, rfl⟩, ?_, ?_⟩
    · rwa [← Expr.isLeaf_unmarked, same, Expr.isLeaf_unmarked]
    · have counts : tree.references (laid.wrapper (laid.firstEqual other)).node =
          tree.references (laid.wrapper other).node := by
        refine List.countP_congr fun subtree member => ?_
        obtain ⟨index, _, rfl⟩ := isOf.mem_subtrees_iff.mp member
        rw [beq_iff isOf.isExact, beq_iff isOf.isExact, same]
      rwa [counts]

/-- What is found is a repeated subtree of greatest height. -/
theorem IsOf.firstShared?_cases (isOf : laid.IsOf tree) :
    (laid.mergeEqual.firstShared? = none ∧ tree.repeated = []) ∨
      ∃ shared < laid.size, laid.mergeEqual.firstShared? = some shared ∧
        laid.firstEqual shared = shared ∧ (laid.wrapper shared).node ∈ tree.repeated ∧
        ∀ other ∈ tree.repeated, other.height ≤ (laid.wrapper shared).node.height := by
  have redirects := redirects_mergeEqual isOf.isExact isOf.laidOut
  have bucketed (index : Nat) (inside : index < laid.size) :
      ∃ bucket, laid.buckets[(laid.wrapper index).depth]? = some bucket ∧ index ∈ bucket := by
    have member : index ∈ laid.buckets.getD (laid.wrapper index).depth [] := by
      rw [isOf.laidOut.buckets]
      simp [inside]
    rw [List.getD_eq_getElem?_getD] at member
    cases found : laid.buckets[(laid.wrapper index).depth]? with
    | none => simp [found] at member
    | some bucket => exact ⟨bucket, rfl, by simpa [found] using member⟩
  have unfolded : laid.mergeEqual.firstShared? =
      laid.buckets.reverse.findSome? fun bucket => bucket.find? laid.mergeEqual.isShared := by
    rw [firstShared?, redirects.buckets]
    rfl
  cases found : laid.mergeEqual.firstShared? with
  | none =>
      refine .inl ⟨rfl, List.eq_nil_iff_forall_not_mem.mpr fun node repeats => ?_⟩
      obtain ⟨index, inside, _, isShared⟩ := isOf.exists_shared repeats
      obtain ⟨bucket, inPlace, member⟩ := bucketed index inside
      rw [unfolded, List.findSome?_eq_none_iff] at found
      have missing := found bucket (List.mem_reverse.mpr (List.mem_of_getElem? inPlace))
      exact List.find?_eq_none.mp missing index member isShared
  | some shared =>
      rw [unfolded, List.findSome?_eq_some_iff] at found
      obtain ⟨higher, bucket, lower, split, first, missing⟩ := found
      have buckets : laid.buckets = lower.reverse ++ bucket :: higher.reverse := by
        have reversed := congrArg List.reverse split
        simpa using reversed
      have isShared : laid.mergeEqual.isShared shared = true := List.find?_some first
      have ofDepth : shared < laid.size ∧ (laid.wrapper shared).depth = lower.length := by
        have member := List.mem_of_find?_eq_some first
        have entry : laid.buckets.getD lower.length [] = bucket := by
          simp [buckets, List.getD_eq_getElem?_getD]
        rw [← entry, isOf.laidOut.buckets] at member
        simpa using member
      have ⟨isFirst, repeats⟩ := (isOf.isShared_iff ofDepth.1).mp isShared
      refine .inr ⟨shared, ofDepth.1, rfl, isFirst, repeats, fun other otherRepeats => ?_⟩
      obtain ⟨index, inside, depth, indexShared⟩ := isOf.exists_shared otherRepeats
      obtain ⟨entry, inPlace, member⟩ := bucketed index inside
      rw [← isOf.laidOut.depth, ofDepth.2, ← depth]
      by_contra deeper
      -- A greater depth was searched before, in vain.
      rw [buckets, List.getElem?_append_right (by rw [List.length_reverse]; omega)] at inPlace
      have before : entry ∈ higher := by
        rw [← List.mem_reverse]
        rw [List.length_reverse, ← Nat.succ_pred_eq_of_pos (Nat.sub_pos_of_lt (by omega)),
          List.getElem?_cons_succ] at inPlace
        exact List.mem_of_getElem? inPlace
      exact List.find?_eq_none.mp (missing entry before) index member indexShared

end Arena

end SymbolicAlgebra
