import SymbolicAlgebra.Proofs.Unmarked
import SymbolicAlgebra.Sharing.Arena

/-!
# The arena of a tree

The arena into which a tree was inserted holds its subtrees, children before their
parents.  Every wrapper stands in the place that its parent gives it, and the buckets
sort the wrappers by the heights of their nodes.

An insertion only adds to an arena.  What it adds is described by `Grows`, which is
closed under putting insertions one after the other and under a new node over them.
-/

namespace SymbolicAlgebra

namespace Arena

variable {arena next last : Arena} {index child slot depth : Nat} {indices children : List Nat}
  {tree node : Expr} {trees : List Expr} {update : Wrapper → Wrapper}

/-! ## Wrappers -/

theorem wrapper_of_le (outside : arena.size ≤ index) :
    arena.wrapper index = ⟨.array [], [], none, 0, 0⟩ := by
  rw [wrapper, Array.getD_eq_getD_getElem?, Array.getElem?_eq_none outside, Option.getD_none]

@[simp] theorem size_change : (arena.change index update).size = arena.size :=
  Array.size_modify

@[simp] theorem buckets_change : (arena.change index update).buckets = arena.buckets := rfl

theorem wrapper_change (inside : index < arena.size) (other : Nat) :
    (arena.change index update).wrapper other =
      if index = other then update (arena.wrapper other) else arena.wrapper other := by
  rw [wrapper, wrapper, change, Array.getD_eq_getD_getElem?, Array.getD_eq_getD_getElem?,
    Array.getElem?_modify]
  split
  · next same =>
      subst same
      rw [Array.getElem?_eq_getElem inside]
      rfl
  · rfl

/-- The nodes in the order of their wrappers. -/
def nodes (arena : Arena) : List Expr := arena.wrappers.toList.map Wrapper.node

theorem length_nodes : arena.nodes.length = arena.size := by
  rw [nodes, List.length_map, Array.length_toList, size]

theorem getElem?_nodes (inside : index < arena.size) :
    arena.nodes[index]? = some (arena.wrapper index).node := by
  rw [nodes, List.getElem?_map, Array.getElem?_toList, wrapper, Array.getD_eq_getD_getElem?,
    Array.getElem?_eq_getElem inside]
  rfl

/-! ## Adoption -/

/-- Places from a number on are made known to the wrappers that stand there. -/
theorem adopt_from (distinct : children.Nodup) (inside : ∀ child ∈ children, child < arena.size)
    (parent start : Nat) :
    let adopted := (children.zipIdx start).foldl (fun arena place =>
      arena.change place.1 fun wrapper => { wrapper with parent := some (parent, place.2) }) arena
    adopted.size = arena.size ∧ adopted.buckets = arena.buckets ∧
      ∀ index, adopted.wrapper index =
        if index ∈ children then
          { arena.wrapper index with parent := some (parent, start + children.idxOf index) }
        else arena.wrapper index := by
  induction children generalizing arena start with
  | nil => exact ⟨rfl, rfl, fun index => (if_neg List.not_mem_nil).symm⟩
  | cons first rest ih =>
      rw [List.nodup_cons] at distinct
      rw [List.forall_mem_cons] at inside
      rw [List.zipIdx_cons, List.foldl_cons]
      have restInside : ∀ child ∈ rest, child < (arena.change first fun wrapper =>
          { wrapper with parent := some (parent, start) }).size := by
        rw [size_change]
        exact inside.2
      obtain ⟨size, buckets, wrappers⟩ := ih distinct.2 restInside (start + 1)
      refine ⟨size.trans size_change, buckets, fun index => ?_⟩
      rw [wrappers, wrapper_change inside.1]
      by_cases same : first = index
      · subst same
        simp [distinct.1]
      · by_cases member : index ∈ rest
        · simp [member, same, Nat.add_assoc, Nat.add_comm 1]
        · simp [member, same, Ne.symm same]

theorem size_adopt (distinct : children.Nodup) (inside : ∀ child ∈ children, child < arena.size)
    (parent : Nat) : (arena.adopt parent children).size = arena.size :=
  (adopt_from distinct inside parent 0).1

theorem wrapper_adopt (distinct : children.Nodup) (inside : ∀ child ∈ children, child < arena.size)
    (parent index : Nat) : (arena.adopt parent children).wrapper index =
      if index ∈ children then
        { arena.wrapper index with parent := some (parent, children.idxOf index) }
      else arena.wrapper index := by
  have adopted := (adopt_from distinct inside parent 0).2.2 index
  rwa [Nat.zero_add] at adopted

/-! ## Laid out trees -/

/-- The places of every wrapper hold the children of its node, which come before it and
know where they stand.  Nothing was merged yet. -/
structure LaidOut (arena : Arena) : Prop where
  slots : ∀ index, (arena.wrapper index).children.map (fun child => (arena.wrapper child).node) =
    (arena.wrapper index).node.children
  descends : ∀ index, ∀ child ∈ (arena.wrapper index).children, child < index
  parent_iff : ∀ index slot child, (arena.wrapper child).parent = some (index, slot) ↔
    (arena.wrapper index).children[slot]? = some child
  depth : ∀ index, (arena.wrapper index).depth = (arena.wrapper index).node.height
  references : ∀ index < arena.size, (arena.wrapper index).references = 1
  buckets : ∀ depth, arena.buckets.getD depth [] =
    (List.range arena.size).filter fun index => (arena.wrapper index).depth = depth

theorem LaidOut.child_lt (laidOut : arena.LaidOut)
    (member : child ∈ (arena.wrapper index).children) :
    child < arena.size ∧ index < arena.size := by
  have below := laidOut.descends index child member
  have inside : index < arena.size := by
    by_contra outside
    rw [wrapper_of_le (Nat.not_lt.mp outside)] at member
    exact List.not_mem_nil member
  exact ⟨below.trans inside, inside⟩

theorem laidOut_empty : empty.LaidOut := by
  have missing (index : Nat) : empty.wrapper index = ⟨.array [], [], none, 0, 0⟩ :=
    wrapper_of_le (Nat.zero_le index)
  refine ⟨fun index => ?_, fun index child member => ?_, fun index slot child => ?_,
    fun index => ?_, fun index inside => absurd inside (Nat.not_lt_zero index), fun depth => rfl⟩
  · rw [missing]
    rfl
  · rw [missing] at member
    exact absurd member List.not_mem_nil
  · rw [missing, missing]
    simp
  · rw [missing]
    rfl

/-- Some trees were inserted into the arena, and their roots got these indices. -/
structure Grows (arena next : Arena) (trees : List Expr) (indices : List Nat) : Prop where
  laid : next.LaidOut
  kept : ∀ index < arena.size, next.wrapper index = arena.wrapper index
  nodes : next.nodes = arena.nodes ++ trees.flatMap Expr.subtrees
  held : indices.map (fun index => (next.wrapper index).node) = trees
  sorted : indices.Pairwise (· < ·)
  new : ∀ index ∈ indices, arena.size ≤ index ∧ index < next.size ∧
    (next.wrapper index).parent = none

theorem Grows.size_le (grows : arena.Grows next trees indices) : arena.size ≤ next.size := by
  have length := congrArg List.length grows.nodes
  rw [List.length_append, length_nodes, length_nodes] at length
  omega

theorem Grows.nil (laid : arena.LaidOut) : arena.Grows arena [] [] :=
  ⟨laid, fun _ _ => rfl, (List.append_nil _).symm, rfl, .nil, List.forall_mem_nil _⟩

theorem Grows.cons (first : arena.Grows next [tree] [index])
    (rest : next.Grows last trees indices) :
    arena.Grows last (tree :: trees) (index :: indices) := by
  have ⟨older, inside, orphan⟩ := first.new index List.mem_cons_self
  have held := first.held
  rw [List.map_singleton, List.singleton_inj] at held
  refine ⟨rest.laid, fun other below => ?_, ?_, ?_, ?_, ?_⟩
  · rw [rest.kept other (Nat.lt_of_lt_of_le below first.size_le), first.kept other below]
  · rw [rest.nodes, first.nodes, List.flatMap_singleton, List.append_assoc, List.flatMap_cons]
  · rw [List.map_cons, rest.kept index inside, held, rest.held]
  · refine List.pairwise_cons.mpr ⟨fun other member => ?_, rest.sorted⟩
    exact Nat.lt_of_lt_of_le inside (rest.new other member).1
  · refine List.forall_mem_cons.mpr ⟨⟨older, ?_, ?_⟩, fun other member => ?_⟩
    · exact Nat.lt_of_lt_of_le inside rest.size_le
    · rw [rest.kept index inside, orphan]
    · have ⟨after, rest⟩ := rest.new other member
      exact ⟨Nat.le_trans first.size_le after, rest⟩

/-! ### A new node -/

section Add

variable (node)

/-- The depth of a wrapper over others. -/
theorem depth_eq_height (laid : arena.LaidOut)
    (held : indices.map (fun index => (arena.wrapper index).node) = node.children) :
    (indices.map fun child => (arena.wrapper child).depth + 1).foldr max 0 = node.height := by
  rw [Expr.height_eq, ← held, List.map_map]
  exact congrArg (List.foldr max 0) (List.map_congr_left fun child _ =>
    congrArg (· + 1) (laid.depth child))

/-- Buckets up to a depth, one of which gets another index. -/
theorem getD_enter (buckets : List (List Nat)) (depth index other : Nat) :
    ((buckets ++ List.replicate (depth + 1 - buckets.length) []).modify depth
      (· ++ [index])).getD other [] =
        buckets.getD other [] ++ if depth = other then [index] else [] := by
  rw [List.getD_eq_getElem?_getD, List.getD_eq_getElem?_getD, List.getElem?_modify]
  by_cases inside : other < buckets.length
  · rw [List.getElem?_append_left inside, List.getElem?_eq_getElem inside]
    split <;> simp
  · have missing : buckets[other]? = none := List.getElem?_eq_none (Nat.not_lt.mp inside)
    rw [List.getElem?_append_right (Nat.not_lt.mp inside), missing, List.getElem?_replicate]
    split <;> split <;> simp
    omega

variable {node}

/-- The wrappers after one was added. -/
theorem wrapper_add (grows : arena.Grows next node.children indices) (index : Nat) :
    ((add node indices).run next).2.wrapper index =
      if index = next.size then ⟨node, indices, none, 1, node.height⟩
      else if index ∈ indices then
        { next.wrapper index with parent := some (next.size, indices.idxOf index) }
      else next.wrapper index := by
  have distinct : indices.Nodup := grows.sorted.imp Nat.ne_of_lt
  have inside (child : Nat) (member : child ∈ indices) : child < next.size :=
    (grows.new child member).2.1
  have size : (next.adopt next.size indices).wrappers.size = next.size :=
    size_adopt distinct inside next.size
  rw [← wrapper_adopt distinct inside, ← depth_eq_height node grows.laid grows.held]
  change (Array.getD (Array.push _ _) index _) = _
  rw [Array.getD_eq_getD_getElem?, Array.getElem?_push, size]
  split
  · rfl
  · rw [wrapper, Array.getD_eq_getD_getElem?]

theorem size_add (grows : arena.Grows next node.children indices) :
    ((add node indices).run next).2.size = next.size + 1 := by
  have distinct : indices.Nodup := grows.sorted.imp Nat.ne_of_lt
  have size := size_adopt distinct (fun child member => (grows.new child member).2.1) next.size
  exact (Array.size_push _).trans (congrArg (· + 1) size)

theorem buckets_add (grows : arena.Grows next node.children indices) (depth : Nat) :
    ((add node indices).run next).2.buckets.getD depth [] =
      next.buckets.getD depth [] ++ if node.height = depth then [next.size] else [] := by
  rw [← depth_eq_height node grows.laid grows.held]
  exact getD_enter _ _ _ _

/-- The wrappers of the children are told their places, and no others change. -/
theorem laidOut_add (grows : arena.Grows next node.children indices) :
    ((add node indices).run next).2.LaidOut := by
  have wrappers := wrapper_add grows
  have size := size_add grows
  have buckets := buckets_add grows
  generalize ((add node indices).run next).2 = added at wrappers size buckets
  have ⟨laid, _, _, held, sorted, new⟩ := grows
  have distinct : indices.Nodup := sorted.imp Nat.ne_of_lt
  have self : added.wrapper next.size = ⟨node, indices, none, 1, node.height⟩ := by
    rw [wrappers, if_pos rfl]
  -- Apart from the new one, wrappers change at most in their parents.
  have old (index : Nat) (different : index ≠ next.size) :
      added.wrapper index =
        { next.wrapper index with parent := (added.wrapper index).parent } := by
    rw [wrappers, if_neg different]
    split <;> rfl
  have nodes (child : Nat) (inside : child < next.size) :
      (added.wrapper child).node = (next.wrapper child).node := by
    rw [old child inside.ne]
  have below (index : Nat) (child : Nat) (member : child ∈ (next.wrapper index).children) :
      child < next.size := by
    have descends := laid.descends index child member
    by_contra outside
    rw [wrapper_of_le (by omega)] at member
    exact List.not_mem_nil member
  constructor
  case slots =>
    intro index
    by_cases same : index = next.size
    · subst same
      rw [self, ← held]
      exact List.map_congr_left fun child member => nodes child (new child member).2.1
    · rw [old index same, ← laid.slots index]
      exact List.map_congr_left fun child member => nodes child (below index child member)
  case descends =>
    intro index child member
    by_cases same : index = next.size
    · subst same
      rw [self] at member
      exact (new child member).2.1
    · rw [old index same] at member
      exact laid.descends index child member
  case parent_iff =>
    intro index slot child
    have parents : (added.wrapper child).parent =
        if child ∈ indices then some (next.size, indices.idxOf child)
        else (next.wrapper child).parent := by
      rw [wrappers]
      split
      · next same =>
          subst same
          have fresh : next.size ∉ indices := fun member =>
            Nat.lt_irrefl _ (new next.size member).2.1
          rw [if_neg fresh, wrapper_of_le (Nat.le_refl next.size)]
      · split <;> rfl
    have missing : (next.wrapper next.size).children = [] := by
      rw [wrapper_of_le (Nat.le_refl next.size)]
    rw [parents]
    by_cases member : child ∈ indices
    · have orphan : ∀ slot : Nat, (next.wrapper index).children[slot]? ≠ some child := by
        intro slot inPlace
        rw [← laid.parent_iff, (new child member).2.2] at inPlace
        cases inPlace
      rw [if_pos member, Option.some.injEq, Prod.mk.injEq]
      by_cases same : index = next.size
      · subst same
        rw [self, and_iff_right rfl]
        constructor
        · rintro rfl
          exact List.getElem?_idxOf member
        · intro inPlace
          obtain ⟨inBounds, rfl⟩ := List.getElem?_eq_some_iff.mp inPlace
          exact distinct.idxOf_getElem slot inBounds
      · rw [old index same]
        exact iff_of_false (fun both => same both.1.symm) (orphan slot)
    · rw [if_neg member, laid.parent_iff]
      by_cases same : index = next.size
      · subst same
        rw [self, missing]
        refine iff_of_false (by simp) fun inPlace => member ?_
        exact List.mem_iff_getElem?.mpr ⟨slot, inPlace⟩
      · rw [old index same]
  case depth =>
    intro index
    by_cases same : index = next.size
    · subst same
      rw [self]
    · rw [old index same]
      exact laid.depth index
  case references =>
    intro index inside
    by_cases same : index = next.size
    · subst same
      rw [self]
    · rw [old index same]
      exact laid.references index (by omega)
  case buckets =>
    intro depth
    have same : ∀ index ∈ List.range next.size,
        decide ((next.wrapper index).depth = depth) =
          decide ((added.wrapper index).depth = depth) := by
      intro index member
      rw [old index (List.mem_range.mp member).ne]
    rw [buckets, size, List.range_succ, List.filter_append, laid.buckets,
      List.filter_congr same, List.filter_singleton, self]
    simp

theorem nodes_add (grows : arena.Grows next node.children indices) :
    ((add node indices).run next).2.nodes = next.nodes ++ [node] := by
  have wrappers := wrapper_add grows
  have size := size_add grows
  generalize ((add node indices).run next).2 = added at wrappers size
  refine List.ext_getElem? fun index => ?_
  by_cases inside : index < added.size
  · rw [getElem?_nodes inside, wrappers, List.getElem?_append, length_nodes]
    by_cases same : index = next.size
    · subst same
      simp
    · have older : index < next.size := by omega
      rw [if_neg same, if_pos older, getElem?_nodes older]
      split <;> rfl
  · rw [List.getElem?_eq_none (by rw [length_nodes]; omega), List.getElem?_eq_none]
    rw [List.length_append, length_nodes, List.length_singleton]
    omega

theorem grows_add (grows : arena.Grows next node.children indices) :
    arena.Grows ((add node indices).run next).2 [node] [next.size] := by
  have wrappers := wrapper_add grows
  have size := size_add grows
  have ⟨_, kept, nodes, _, _, new⟩ := grows
  refine ⟨laidOut_add grows, fun index below => ?_, ?_, ?_, List.pairwise_singleton _ _, ?_⟩
  · have older := Nat.lt_of_lt_of_le below grows.size_le
    have notChild : index ∉ indices := fun member => by
      have := (new index member).1
      omega
    rw [wrappers, if_neg older.ne, if_neg notChild, kept index below]
  · rw [nodes_add grows, nodes, List.flatMap_singleton, Expr.subtrees_eq, List.append_assoc]
  · rw [List.map_singleton, wrappers, if_pos rfl]
  · rw [List.forall_mem_singleton, size, wrappers, if_pos rfl]
    exact ⟨grows.size_le, Nat.lt_succ_self _, rfl⟩

end Add

/-! ### Insertion -/

theorem insert_node (inner : tree.isLeaf = false) :
    insert tree = tree.children.mapM insert >>= add tree := by
  rw [insert, Expr.fold_node inner]
  simp only [List.mapM_map]
  rfl

theorem mapM_insert_grows (each : ∀ tree ∈ trees, ∀ arena : Arena, arena.LaidOut →
      arena.Grows ((insert tree).run arena).2 [tree] [((insert tree).run arena).1])
    (laid : arena.LaidOut) :
    arena.Grows ((trees.mapM insert).run arena).2 trees ((trees.mapM insert).run arena).1 := by
  induction trees generalizing arena with
  | nil => exact .nil laid
  | cons tree trees ih =>
      rw [List.forall_mem_cons] at each
      rw [List.mapM_cons]
      have first := each.1 arena laid
      exact first.cons (ih each.2 first.laid)

/-- An insertion adds the subtrees of the tree. -/
theorem insert_grows (tree : Expr) (laid : arena.LaidOut) :
    arena.Grows ((insert tree).run arena).2 [tree] [((insert tree).run arena).1] := by
  induction tree using Expr.induction_children generalizing arena with
  | leaf tree isLeaf =>
      have single : insert tree = add tree [] := Expr.fold_leaf isLeaf
      rw [single]
      refine grows_add ?_
      rw [Expr.children_leaf isLeaf]
      exact .nil laid
  | node tree inner ih =>
      rw [insert_node inner]
      exact grows_add (mapM_insert_grows (fun child member arena laid => ih child member laid) laid)

/-- The arena of a tree. -/
theorem insert_empty (tree : Expr) :
    let laid := ((insert tree).run .empty).2
    laid.LaidOut ∧ laid.nodes = tree.subtrees ∧
      ((insert tree).run .empty).1 < laid.size ∧
      (laid.wrapper ((insert tree).run .empty).1).node = tree := by
  have ⟨laid, _, nodes, held, _, new⟩ := insert_grows tree laidOut_empty
  rw [List.flatMap_singleton] at nodes
  rw [List.map_singleton, List.singleton_inj] at held
  exact ⟨laid, nodes, (new _ List.mem_cons_self).2.1, held⟩

end Arena

end SymbolicAlgebra
