import SymbolicAlgebra.Proofs.Arena.Places
import SymbolicAlgebra.Proofs.Arena.Sharing

/-!
# A step of hoisting on the arena

On a tree of exact numbers, what is built from the merged arena is the tree in which the
replacement took the place of every subtree equal to the hoisted one, and the first of equal
nodes the place of all of them.  The hoisted subtree repeats, and none of those that repeat is
higher.
-/

namespace SymbolicAlgebra

namespace Arena

/-- The arena of a tree, before anything is merged. -/
def layout (tree : Expr) : Arena := ((insert tree).run .empty).2

/-- The wrapper of the tree itself. -/
def root (tree : Expr) : Nat := ((insert tree).run .empty).1

variable {laid : Arena} {tree replacement : Expr} {index shared : Nat}

theorem laidOut_layout (tree : Expr) : (layout tree).LaidOut := (insert_empty tree).1

theorem nodes_layout (tree : Expr) : (layout tree).nodes = tree.subtrees := (insert_empty tree).2.1

theorem root_lt (tree : Expr) : root tree < (layout tree).size := (insert_empty tree).2.2.1

theorem node_root (tree : Expr) : ((layout tree).wrapper (root tree)).node = tree :=
  (insert_empty tree).2.2.2

theorem isOf_layout (exact : tree.IsExact) : (layout tree).IsOf tree :=
  ⟨laidOut_layout tree, nodes_layout tree, exact⟩

/-- The first of equal nodes is that of the first wrapper. -/
theorem IsOf.firstEqual_node (isOf : laid.IsOf tree) (index : Nat) :
    Expr.firstEqual tree.subtrees (laid.wrapper index).node =
      (laid.wrapper (laid.firstEqual index)).node := by
  rw [Expr.firstEqual, ← isOf.nodes, nodes_eq_map, List.find?_map, firstEqual, firstAmong]
  exact Option.getD_map (fun other => (laid.wrapper other).node) index _

/-- The tree itself equals no other of its subtrees. -/
theorem IsOf.firstEqual_eq_self (isOf : laid.IsOf tree) (inside : index < laid.size)
    (whole : (laid.wrapper index).node = tree) : laid.firstEqual index = index := by
  have last (other : Nat) (otherInside : other < laid.size)
      (same : (laid.wrapper other).node.unmarked = tree.unmarked) : other + 1 = laid.size := by
    by_contra before
    have earlier : other < (tree.children.flatMap Expr.subtrees).length := by
      have length : laid.nodes.length = laid.size := length_nodes
      rw [isOf.nodes, Expr.subtrees_eq, List.length_append, List.length_singleton] at length
      omega
    have found := getElem?_nodes otherInside
    rw [isOf.nodes, Expr.subtrees_eq, List.getElem?_append_left earlier] at found
    obtain ⟨child, member, below⟩ := List.mem_flatMap.mp (List.mem_of_getElem? found)
    have lower := Nat.lt_of_le_of_lt (Expr.height_le_of_mem_subtrees below)
      (Expr.height_lt_of_mem_children member)
    rw [← Expr.height_unmarked, same, Expr.height_unmarked] at lower
    exact Nat.lt_irrefl _ lower
  have ⟨firstInside, equal, _⟩ := firstEqual_spec isOf.isExact inside
  have same := (beq_iff isOf.isExact).mp equal
  rw [whole] at same
  have := last _ firstInside same
  have := last index inside (by rw [whole])
  omega

/-- What is built for the first of equal wrappers. -/
theorem IsOf.rebuilt_eq_introduce (isOf : laid.IsOf tree) (inside : index < laid.size)
    (isFirst : laid.firstEqual index = index) (sharedInside : shared < laid.size)
    (sharedFirst : laid.firstEqual shared = shared)
    (inner : (laid.wrapper shared).node.isLeaf = false) :
    laid.mergeEqual.rebuilt shared replacement index =
      Expr.introduce (laid.wrapper shared).node replacement (laid.wrapper index).node
        tree.subtrees := by
  have redirects := redirects_mergeEqual isOf.isExact isOf.laidOut
  have descends := (keeps_mergeEqual isOf.laidOut).descends isOf.laidOut
  induction index using Nat.strongRecOn with
  | ind index ih =>
      have slots := isOf.laidOut.slots index
      have kept := isOf.firstEqual_node index
      rw [isFirst] at kept
      rw [rebuilt_eq descends, redirects.wrapper index inside]
      dsimp only
      rw [List.isEmpty_map, List.map_map]
      by_cases isLeaf : (laid.wrapper index).node.isLeaf = true
      · have different : index ≠ shared := by
          rintro rfl
          rw [isLeaf] at inner
          cases inner
        rw [Expr.children_leaf isLeaf, List.map_eq_nil_iff] at slots
        rw [Expr.introduce_leaf isLeaf, kept, if_neg different, slots, List.isEmpty_nil, if_pos rfl]
      rw [Expr.introduce_node (by simpa using isLeaf), kept]
      by_cases here : index = shared
      · subst here
        rw [if_pos rfl, if_pos ((beq_iff isOf.isExact).mpr rfl)]
      have different : ¬((laid.wrapper index).node == (laid.wrapper shared).node) = true := by
        intro equal
        have same := (firstEqual_eq_iff isOf.isExact inside sharedInside).mpr
          ((beq_iff isOf.isExact).mp equal)
        exact here (by rw [← isFirst, same, sharedFirst])
      rw [if_neg here, if_neg different]
      by_cases childless : (laid.wrapper index).children.isEmpty = true
      · -- An array without items is kept, as there is nothing to compare.
        rw [if_pos childless, ← slots, List.isEmpty_iff.mp childless]
        rfl
      rw [if_neg childless, ← slots, List.map_map]
      have parts : (laid.wrapper index).children.map
            (laid.mergeEqual.rebuilt shared replacement ∘ laid.firstEqual) =
          (laid.wrapper index).children.map
            ((Expr.introduce (laid.wrapper shared).node replacement · tree.subtrees) ∘
              fun child => (laid.wrapper child).node) := by
        refine List.map_congr_left fun child member => ?_
        have childInside := (isOf.laidOut.child_lt member).1
        have ⟨firstInside, equal, again⟩ := firstEqual_spec isOf.isExact childInside
        have notAfter := firstEqual_le isOf.isExact childInside childInside rfl
        have before := isOf.laidOut.descends index child member
        refine (ih _ (Nat.lt_of_le_of_lt notAfter before) firstInside again).trans ?_
        exact Expr.introduce_congr isOf.exact (isOf.mem_subtrees_iff.mpr ⟨_, firstInside, rfl⟩)
          (isOf.mem_subtrees_iff.mpr ⟨_, childInside, rfl⟩) ((beq_iff isOf.isExact).mp equal)
      rw [parts]

end Arena

namespace Expr

variable {tree : Expr}

open Arena in
/-- A step leaves the tree as it is when no wrapper is shared, and else it builds the tree
again, with a new variable for the first shared wrapper. -/
theorem hoist_eq (tree : Expr) (auxiliaries : Auxiliaries) (start : Nat) :
    let name := freshName tree.variableNames auxiliaries.names
    ((layout tree).mergeEqual.firstShared? = none ∧
        tree.hoist auxiliaries = pure (.ok (tree, auxiliaries))) ∨
      ∃ shared, (layout tree).mergeEqual.firstShared? = some shared ∧
        (tree.hoist auxiliaries).value start =
          ((layout tree).mergeEqual.rebuilt shared (.var name (.made start)) (root tree)).map
            (·, auxiliaries.push name ((layout tree).wrapper shared).node) ∧
        (tree.hoist auxiliaries).marks start = start + 1 ∧
        (tree.hoist auxiliaries).steps start =
          [.hoisting ((layout tree).wrapper shared).node
            ((layout tree).mergeEqual.wrapper shared).references name] := by
  intro name
  have keeps := keeps_mergeEqual (laidOut_layout tree)
  have laid : (insert tree).run .empty = (root tree, layout tree) := rfl
  rw [hoist, laid]
  dsimp only
  cases found : (layout tree).mergeEqual.firstShared? with
  | none => exact .inl ⟨rfl, rfl⟩
  | some shared =>
      refine .inr ⟨shared, rfl, ?_⟩
      dsimp only [Traced.value_bind, Traced.marks_bind, Traced.steps_bind]
      rw [run'_rebuild (keeps.descends (laidOut_layout tree)) (keeps.size ▸ root_lt tree),
        keeps.node]
      generalize rebuilds : (layout tree).mergeEqual.rebuilt shared _ (root tree) = result
      have same : (layout tree).mergeEqual.rebuilt shared (.var name (.made start)) (root tree) =
          result := rebuilds
      rw [same]
      cases result <;> exact ⟨rfl, rfl, rfl⟩

/-- What one step does to a tree of exact numbers.  It counts the occurrences of the subtree
right, too. -/
theorem hoist_of_exact (exact : tree.IsExact) (auxiliaries : Auxiliaries) (start : Nat) :
    let name := freshName tree.variableNames auxiliaries.names
    (tree.repeated = [] ∧ tree.hoist auxiliaries = pure (.ok (tree, auxiliaries))) ∨
      ∃ subtree ∈ tree.repeated,
        (∀ other ∈ tree.repeated, other.height ≤ subtree.height) ∧
        (tree.hoist auxiliaries).value start =
          (introduce subtree (.var name (.made start)) tree tree.subtrees).map
            (·, auxiliaries.push name subtree) ∧
        (tree.hoist auxiliaries).marks start = start + 1 ∧
        (tree.hoist auxiliaries).steps start =
          [.hoisting subtree (tree.references subtree) name] := by
  intro name
  have isOf := Arena.isOf_layout exact
  have rootInside := Arena.root_lt tree
  have rootFirst := isOf.firstEqual_eq_self rootInside (Arena.node_root tree)
  rcases hoist_eq tree auxiliaries start with
    ⟨missing, unchanged⟩ | ⟨shared, found, value, marks, steps⟩
  · rcases isOf.firstShared?_cases with ⟨_, nothing⟩ | ⟨shared, _, found, _⟩
    · exact .inl ⟨nothing, unchanged⟩
    · rw [missing] at found
      cases found
  · rcases isOf.firstShared?_cases with
      ⟨missing, _⟩ | ⟨first, inside, again, isFirst, repeats, highest⟩
    · rw [missing] at found
      cases found
    · rw [found, Option.some.injEq] at again
      subst again
      have inner := (mem_repeated_iff_references.mp repeats).2.1
      refine .inr ⟨_, repeats, highest, ?_, marks, ?_⟩
      · rw [value, isOf.rebuilt_eq_introduce rootInside rootFirst inside isFirst inner,
          Arena.node_root]
      · rw [steps, isOf.references_eq inside isFirst]

end Expr

end SymbolicAlgebra
