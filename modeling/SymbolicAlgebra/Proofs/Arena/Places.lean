import SymbolicAlgebra.Proofs.Arena.Layout
import SymbolicAlgebra.Proofs.Arena.Rebuilding

/-!
# Places of any tree

Equality of trees with doubles is not transitive, so merging may give a place to a wrapper whose
node differs from the child.  Whatever the tree, though, the wrapper comes no later than that of
the child, and it has the same variables.
-/

namespace SymbolicAlgebra

namespace Expr

variable {tree other : Expr}

theorem occurrences_node (inner : tree.isLeaf = false) :
    tree.occurrences = (tree.children.map occurrences).flatten :=
  fold_node inner

theorem occurrences_eq_of_agree (equal : agree tree other = true) :
    tree.occurrences = other.occurrences := by
  induction tree using induction_children generalizing other with
  | leaf tree isLeaf =>
      cases tree with
      | number | bool | char | text | error => cases other <;> first | cases equal | rfl
      | var => cases other <;> first | cases equal | simpa [agree] using equal
      | _ => cases isLeaf
  | node tree inner ih =>
      obtain ⟨head, children⟩ := (agree_node_iff inner).mp equal
      have otherInner : other.isLeaf = false := by rwa [Expr.isLeaf, ← head]
      have pairs := agreeAll_iff_forall₂.mp children
      rw [occurrences_node inner, occurrences_node otherInner]
      apply congrArg List.flatten
      rw [← List.forall₂_eq_eq_eq, List.forall₂_map_left_iff, List.forall₂_map_right_iff]
      refine List.forall₂_iff_zip.mpr ⟨pairs.length_eq, fun {child twin} pair => ?_⟩
      exact ih child (List.of_mem_zip pair).1 (List.forall₂_zip pairs pair)

end Expr

namespace Arena

variable {laid arena : Arena} {tree : Expr} {first second earlier later index : Nat}
  {update : Wrapper → Wrapper}

/-- The variables of a wrapper's node. -/
def mentioned (arena : Arena) (index : Nat) : List String :=
  (arena.wrapper index).node.occurrences

/-- A wrapper may stand in the place of a child: it comes no later and has the same
variables. -/
def StandsFor (laid : Arena) (child held : Nat) : Prop :=
  held ≤ child ∧ laid.mentioned held = laid.mentioned child

/-- Only what the places hold, and how often, differs from the arena that was laid out. -/
structure Keeps (laid arena : Arena) : Prop where
  size : arena.size = laid.size
  buckets : arena.buckets = laid.buckets
  node : ∀ index, (arena.wrapper index).node = (laid.wrapper index).node
  parent : ∀ index, (arena.wrapper index).parent = (laid.wrapper index).parent
  places : ∀ index,
    List.Forall₂ laid.StandsFor (laid.wrapper index).children (arena.wrapper index).children

theorem keeps_self (laid : Arena) : laid.Keeps laid where
  size := rfl
  buckets := rfl
  node _ := rfl
  parent _ := rfl
  places _ := List.forall₂_same.mpr fun _ _ => ⟨Nat.le_refl _, rfl⟩

theorem Keeps.descends (keeps : laid.Keeps arena) (laidOut : laid.LaidOut) : arena.Descends := by
  intro index held member
  obtain ⟨slot, inBounds, rfl⟩ := List.getElem_of_mem member
  have childInBounds : slot < (laid.wrapper index).children.length := by
    rwa [(keeps.places index).length_eq]
  have ⟨before, _⟩ := (keeps.places index).get childInBounds inBounds
  exact Nat.lt_of_le_of_lt before (laidOut.descends index _ (List.getElem_mem _))

/-- Equal wrappers have the same variables. -/
theorem Keeps.mentioned_eq (keeps : laid.Keeps arena) (laidOut : laid.LaidOut)
    (equal : arena.equal first second = true) : laid.mentioned first = laid.mentioned second := by
  have held (index : Nat) : (laid.wrapper index).node.children.map Expr.occurrences =
      (arena.wrapper index).children.map laid.mentioned := by
    rw [← laidOut.slots, List.map_map, ← List.forall₂_eq_eq_eq, List.forall₂_map_left_iff,
      List.forall₂_map_right_iff]
    exact (keeps.places index).imp fun child held stands => stands.2.symm
  rw [Arena.equal, keeps.node, keeps.node] at equal
  rw [mentioned, mentioned]
  split at equal
  · exact Expr.occurrences_eq_of_agree equal
  · next inner =>
      simp only [Bool.or_eq_true, not_or, Bool.not_eq_true] at inner
      have ⟨_, children⟩ := (Bool.and_eq_true_iff).mp equal
      rw [Expr.occurrences_node inner.1, Expr.occurrences_node inner.2, held, held,
        eq_of_beq children]

/-- A change of the wrapper at one index that leaves an allowed wrapper in every place. -/
theorem Keeps.change (keeps : laid.Keeps arena) (inside : index < laid.size)
    (node : (update (arena.wrapper index)).node = (arena.wrapper index).node)
    (parent : (update (arena.wrapper index)).parent = (arena.wrapper index).parent)
    (places : List.Forall₂ laid.StandsFor (laid.wrapper index).children
      (update (arena.wrapper index)).children) :
    laid.Keeps (arena.change index update) := by
  have wrappers : ∀ other, (arena.change index update).wrapper other = _ :=
    wrapper_change (keeps.size ▸ inside)
  refine ⟨size_change.trans keeps.size, keeps.buckets, fun other => ?_, fun other => ?_,
    fun other => ?_⟩ <;> rw [wrappers] <;> split
  · next same => exact same ▸ node.trans (keeps.node index)
  · exact keeps.node other
  · next same => exact same ▸ parent.trans (keeps.parent index)
  · exact keeps.parent other
  · next same => exact same ▸ places
  · exact keeps.places other

/-- The place of a wrapper may be given to one that stands for it. -/
theorem Keeps.redirect (keeps : laid.Keeps arena) (laidOut : laid.LaidOut)
    (standsFor : laid.StandsFor later earlier) :
    laid.Keeps (arena.redirect (arena.wrapper later).parent earlier) := by
  rw [keeps.parent]
  cases place : (laid.wrapper later).parent with
  | none => exact keeps
  | some place' =>
      obtain ⟨parent, slot⟩ := place'
      have inPlace := (laidOut.parent_iff parent slot later).mp place
      have inside := (laidOut.child_lt (List.mem_of_getElem? inPlace)).2
      refine keeps.change inside rfl rfl ?_
      have places := keeps.places parent
      rw [List.forall₂_iff_get] at places ⊢
      refine ⟨by simpa using places.1, fun other inBounds _ => ?_⟩
      rw [List.get_eq_getElem, List.get_eq_getElem, List.getElem_set]
      split
      · next same =>
          subst same
          rwa [(List.getElem?_eq_some_iff.mp inPlace).2]
      · exact places.2 other inBounds _

/-- One pair of wrappers. -/
theorem Keeps.merge (keeps : laid.Keeps arena) (laidOut : laid.LaidOut)
    (before : earlier < later) (inside : later < laid.size) :
    laid.Keeps (arena.merge earlier later) := by
  rw [Arena.merge]
  split
  · next merges =>
      have equal := (Bool.and_eq_true_iff.mp merges).2
      have redirected := keeps.redirect laidOut ⟨before.le, keeps.mentioned_eq laidOut equal⟩
      refine Keeps.change ?counted inside rfl rfl (Keeps.places ?counted later)
      exact redirected.change (before.trans inside) rfl rfl (redirected.places earlier)
  · exact keeps

theorem lt_of_mem_pairs {items : List Nat} {pair : Nat × Nat} (sorted : items.Pairwise (· < ·))
    (member : pair ∈ pairs items) : pair.1 < pair.2 ∧ pair.2 ∈ items := by
  induction items with
  | nil => exact absurd member List.not_mem_nil
  | cons item items ih =>
      have ⟨after, rest⟩ := List.pairwise_cons.mp sorted
      rcases List.mem_append.mp member with first | later
      · obtain ⟨other, otherMember, rfl⟩ := List.mem_map.mp first
        exact ⟨after other otherMember, List.mem_cons_of_mem _ otherMember⟩
      · have ⟨less, mem⟩ := ih rest later
        exact ⟨less, List.mem_cons_of_mem _ mem⟩

theorem LaidOut.mem_bucket {bucket : List Nat} (laidOut : laid.LaidOut)
    (member : bucket ∈ laid.buckets) :
    bucket.Pairwise (· < ·) ∧ ∀ index ∈ bucket, index < laid.size := by
  obtain ⟨depth, inBounds, rfl⟩ := List.getElem_of_mem member
  have listed := laidOut.buckets depth
  rw [List.getD_eq_getElem?_getD, List.getElem?_eq_getElem inBounds, Option.getD_some] at listed
  rw [listed]
  refine ⟨List.pairwise_lt_range.sublist List.filter_sublist, fun index mem => ?_⟩
  exact List.mem_range.mp (List.mem_filter.mp mem).1

/-- Merging keeps all but the places. -/
theorem keeps_mergeEqual (laidOut : laid.LaidOut) : laid.Keeps laid.mergeEqual := by
  refine List.foldlRecOn laid.buckets _ (keeps_self laid) fun arena keeps bucket member => ?_
  refine List.foldlRecOn (pairs bucket) _ keeps fun arena keeps pair paired => ?_
  have ⟨sorted, within⟩ := laidOut.mem_bucket member
  have ⟨less, mem⟩ := lt_of_mem_pairs sorted paired
  exact keeps.merge laidOut less (within _ mem)

/-- A wrapper that is found is one of the tree's. -/
theorem lt_of_firstShared? (laidOut : laid.LaidOut)
    (found : laid.mergeEqual.firstShared? = some index) : index < laid.size := by
  obtain ⟨bucket, member, first⟩ := List.exists_of_findSome?_eq_some found
  rw [List.mem_reverse, (keeps_mergeEqual laidOut).buckets] at member
  exact (laidOut.mem_bucket member).2 index (List.mem_of_find?_eq_some first)

end Arena

end SymbolicAlgebra
