import Mathlib.Data.List.Perm.Subperm
import SymbolicAlgebra.Proofs.Unmarked

/-!
# Substitution

What substitution gives is said without marks: `plugged` is the tree with a
variable replaced, and a run of `substitute`, from whatever number, gives that
tree once its marks are removed.  So substitution respects equality of trees,
and a tree that does not mention the variable is left as it is.

Checked construction asks of a node only that certain children are variables,
and it can be repeated over other children that are variables where the old ones
were.
-/

namespace SymbolicAlgebra

namespace Expr

variable {tree other node : Expr} {name : String}

/-! ## Functions that do not see marks -/

theorem asVar?_unmarked : tree.unmarked.asVar? = tree.asVar? := by
  cases tree <;> rfl

theorem asNumber?_unmarked : tree.unmarked.asNumber? = tree.asNumber? := by
  cases tree <;> rfl

theorem subtrees_unmarked : tree.unmarked.subtrees = tree.subtrees.map unmarked := by
  induction tree using induction_children with
  | leaf tree isLeaf =>
      rw [subtrees, fold_leaf (by rwa [isLeaf_unmarked]), fold_leaf isLeaf]
      rfl
  | node tree inner ih =>
      rw [subtrees, fold_node (by rwa [isLeaf_unmarked]), fold_node inner, children_unmarked,
        List.map_append, List.map_flatten, List.map_map, List.map_map]
      congr 2
      exact List.map_congr_left ih

theorem occurrences_unmarked : tree.unmarked.occurrences = tree.occurrences := by
  induction tree using induction_children with
  | leaf tree isLeaf =>
      rw [occurrences, fold_leaf (by rwa [isLeaf_unmarked]), fold_leaf isLeaf, asVar?_unmarked]
  | node tree inner ih =>
      rw [occurrences, fold_node (by rwa [isLeaf_unmarked]), fold_node inner, children_unmarked,
        List.map_map]
      exact congrArg List.flatten (List.map_congr_left ih)

theorem IsExact.of_unmarked_eq (exact : tree.IsExact) (same : other.unmarked = tree.unmarked) :
    other.IsExact := by
  intro leaf below number found
  have member : leaf.unmarked ∈ tree.subtrees.map unmarked := by
    rw [← subtrees_unmarked, ← same, subtrees_unmarked]
    exact List.mem_map_of_mem below
  obtain ⟨twin, twinBelow, twinSame⟩ := List.mem_map.mp member
  apply exact twin twinBelow number
  rw [← asNumber?_unmarked, twinSame, asNumber?_unmarked, found]

/-! ## The substituted tree -/

/-- The tree with a variable replaced, without marks. -/
def plugged (tree : Expr) (name : String) (replacement : Expr) : Expr :=
  fold (fun leaf => if leaf.asVar? = some name then replacement.unmarked else leaf.unmarked)
    (fun node parts => (node.replaceChildren parts).withMark .unset) tree

variable {replacement : Expr}

theorem plugged_leaf (isLeaf : tree.isLeaf = true) :
    tree.plugged name replacement =
      if tree.asVar? = some name then replacement.unmarked else tree.unmarked :=
  fold_leaf isLeaf

theorem plugged_node (inner : tree.isLeaf = false) :
    tree.plugged name replacement =
      (tree.replaceChildren (tree.children.map (plugged · name replacement))).withMark .unset :=
  fold_node inner

theorem head_plugged (inner : tree.isLeaf = false) :
    (tree.plugged name replacement).head = tree.head := by
  rw [plugged_node inner, head_withMark, head_replaceChildren]

theorem children_plugged (inner : tree.isLeaf = false) :
    (tree.plugged name replacement).children = tree.children.map (plugged · name replacement) := by
  rw [plugged_node inner, children_withMark, children_replaceChildren (List.length_map _)]

theorem givenMark_plugged (inner : tree.isLeaf = false) :
    (tree.plugged name replacement).givenMark = .unset := by
  rw [plugged_node inner, givenMark_withMark]

/-- An inner node is another one after the replacement when their heads are the
same and its children become those of the other. -/
theorem plugged_eq_unmarked (inner : tree.isLeaf = false) (head : tree.head = other.head)
    (children : tree.children.map (plugged · name replacement) = other.children.map unmarked) :
    tree.plugged name replacement = other.unmarked := by
  apply ext_node
  · rwa [Expr.isLeaf, head_plugged inner]
  · rw [head_plugged inner, head_unmarked, head]
  · rw [children_plugged inner, children_unmarked, children]
  · rw [givenMark_plugged inner, givenMark_unmarked]

theorem plugged_of_not_mem (absent : name ∉ tree.occurrences) :
    tree.plugged name replacement = tree.unmarked := by
  induction tree using induction_children with
  | leaf tree isLeaf =>
      have notVar : tree.asVar? ≠ some name := fun found =>
        absent (mem_occurrences_iff.mpr ⟨tree, mem_subtrees_self, found⟩)
      rw [plugged_leaf isLeaf, if_neg notVar]
  | node tree inner ih =>
      refine plugged_eq_unmarked inner rfl (List.map_congr_left fun child member => ?_)
      exact ih child member fun occurs => absent
        (occurrences_subset_of_mem (mem_subtrees_of_mem_children member) occurs)

theorem plugged_unmarked :
    tree.unmarked.plugged name replacement = tree.plugged name replacement := by
  induction tree using induction_children with
  | leaf tree isLeaf =>
      have again : tree.unmarked.unmarked = tree.unmarked := by
        rw [unmarked_leaf isLeaf, unmarked_withMark, unmarked_leaf isLeaf]
      have unmarkedLeaf : tree.unmarked.isLeaf = true := by rwa [isLeaf_unmarked]
      rw [plugged_leaf unmarkedLeaf, plugged_leaf isLeaf, asVar?_unmarked, again]
  | node tree inner ih =>
      have unmarkedInner : tree.unmarked.isLeaf = false := by rwa [isLeaf_unmarked]
      apply ext_node
      · rwa [Expr.isLeaf, head_plugged unmarkedInner]
      · rw [head_plugged unmarkedInner, head_plugged inner, head_unmarked]
      · rw [children_plugged unmarkedInner, children_plugged inner, children_unmarked,
          List.map_map]
        exact List.map_congr_left ih
      · rw [givenMark_plugged unmarkedInner, givenMark_plugged inner]

end Expr

theorem Marking.forall₂_run_all {Item Result : Type} (compute : Item → Marking Result)
    (items : List Item) (start : Nat) :
    List.Forall₂ (fun item result => ∃ start, ((compute item).run start).1 = result) items
      ((all (items.map compute)).run start).1 := by
  induction items generalizing start with
  | nil => exact .nil
  | cons item items ih => exact .cons ⟨start, rfl⟩ (ih _)

namespace Expr

variable {tree other : Expr} {name : String} {replacement : Expr}

theorem substitute_node (inner : tree.isLeaf = false) :
    tree.substitute name replacement =
      if tree.containsVariable name then do
        make (tree.replaceChildren
          (← Marking.all (tree.children.map (substitute · name replacement))))
      else pure tree :=
  fold_node inner

theorem substitute_of_not_mem (absent : name ∉ tree.occurrences) :
    tree.substitute name replacement = pure tree := by
  by_cases isLeaf : tree.isLeaf = true
  · have notVar : tree.asVar? ≠ some name := fun found =>
      absent (mem_occurrences_iff.mpr ⟨tree, mem_subtrees_self, found⟩)
    rw [substitute, fold_leaf isLeaf, if_neg notVar]
  · have unmentioned : tree.containsVariable name ≠ true := fun mentions =>
      absent (containsVariable_iff.mp mentions)
    rw [substitute_node (by simpa using isLeaf), if_neg unmentioned]

/-- The second tree is what a run of the substitution makes of the first one. -/
def SubstitutesTo (name : String) (replacement tree other : Expr) : Prop :=
  ∃ start, ((tree.substitute name replacement).run start).1 = other

namespace SubstitutesTo

theorem leaf (isLeaf : tree.isLeaf = true) (gives : SubstitutesTo name replacement tree other) :
    other = if tree.asVar? = some name then replacement else tree := by
  obtain ⟨start, rfl⟩ := gives
  rw [substitute, fold_leaf isLeaf]
  rfl

/-- An inner node keeps its kind, and its children are substituted in their places. -/
theorem node (inner : tree.isLeaf = false) (gives : SubstitutesTo name replacement tree other) :
    other.head = tree.head ∧
      List.Forall₂ (SubstitutesTo name replacement) tree.children other.children := by
  obtain ⟨start, rfl⟩ := gives
  by_cases mentions : tree.containsVariable name = true
  · rw [substitute_node inner, if_pos mentions]
    have parts : List.Forall₂ (SubstitutesTo name replacement) tree.children _ :=
      Marking.forall₂_run_all (substitute · name replacement) tree.children start
    generalize Marking.all (tree.children.map (substitute · name replacement)) = all at parts
    let rebuilt := (tree.replaceChildren (all.run start).1).withMark (.made (all.run start).2)
    change rebuilt.head = _ ∧ List.Forall₂ _ _ rebuilt.children
    rw [head_withMark, head_replaceChildren, children_withMark,
      children_replaceChildren parts.length_eq.symm]
    exact ⟨rfl, parts⟩
  · have absent : name ∉ tree.occurrences := fun occurs =>
      mentions (containsVariable_iff.mpr occurs)
    rw [substitute_of_not_mem absent]
    refine ⟨rfl, List.forall₂_same.mpr fun child member => ⟨start, ?_⟩⟩
    rw [substitute_of_not_mem fun occurs => absent
      (occurrences_subset_of_mem (mem_subtrees_of_mem_children member) occurs)]
    rfl

theorem unmarked_eq (gives : SubstitutesTo name replacement tree other) :
    other.unmarked = tree.plugged name replacement := by
  induction tree using induction_children generalizing other with
  | leaf tree isLeaf =>
      rw [gives.leaf isLeaf, plugged_leaf isLeaf]
      split <;> rfl
  | node tree inner ih =>
      obtain ⟨head, children⟩ := gives.node inner
      refine (plugged_eq_unmarked inner head.symm ?_).symm
      rw [← List.forall₂_eq_eq_eq, List.forall₂_map_left_iff, List.forall₂_map_right_iff]
      refine List.forall₂_iff_zip.mpr ⟨children.length_eq, fun paired => ?_⟩
      exact (ih _ (List.of_mem_zip paired).1 (List.forall₂_iff_zip.mp children |>.2 paired)).symm

end SubstitutesTo

/-- A run of the substitution gives the substituted tree. -/
theorem unmarked_run_substitute (start : Nat) :
    ((tree.substitute name replacement).run start).1.unmarked = tree.plugged name replacement :=
  SubstitutesTo.unmarked_eq ⟨start, rfl⟩

end Expr

end SymbolicAlgebra
