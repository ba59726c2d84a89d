import Mathlib.Algebra.Order.BigOperators.Group.List
import Mathlib.Algebra.Order.Ring.Nat
import SymbolicAlgebra.Proofs.Hoisting

/-!
# The tree after a step of hoisting

Apart from marks, a step puts the new variable in place of every occurrence of
the hoisted subtree and leaves all else as it is.  Marks enter only here: a node
is kept when its children are the very same nodes, and that they are follows from
their marks as long as the step gives out new ones.

So the hoisted subtree is gone from the next tree, which has fewer inner nodes.
-/

namespace SymbolicAlgebra

/-! ## Marks that were given out -/

namespace Mark

/-- The mark is made of numbers below a bound. -/
def Below (bound : Nat) : Mark → Prop
  | .made number => number < bound
  | .remade cause mark => cause.Below bound ∧ mark.Below bound
  | .unset | .integer _ | .factorial _ => True

theorem Below.succ {mark : Mark} {bound : Nat} (below : mark.Below bound) :
    mark.Below (bound + 1) := by
  induction mark with
  | made number => exact Nat.lt_succ_of_lt below
  | remade cause mark causeIH markIH => exact ⟨causeIH below.1, markIH below.2⟩
  | _ => trivial

theorem Below.renewed {mark : Mark} {bound : Nat} (below : mark.Below bound) :
    (mark.renewed (.made bound)).Below (bound + 1) := by
  rw [Mark.renewed]
  split
  · trivial
  · exact ⟨Nat.lt_succ_self bound, below.succ⟩

/-- A renewed mark that is one at all comes from one mark, and is new. -/
theorem renewed_cases {mark : Mark} (bound : Nat) :
    mark.renewed (.made bound) = .unset ∨
      (mark ≠ .unset ∧ mark.renewed (.made bound) = .remade (.made bound) mark) := by
  by_cases unset : mark = .unset
  · exact .inl (if_pos unset)
  · exact .inr ⟨unset, if_neg unset⟩

theorem not_below_made (bound : Nat) : ¬(Mark.made bound).Below bound := Nat.lt_irrefl bound

theorem not_below_remade (bound : Nat) (mark : Mark) :
    ¬(Mark.remade (.made bound) mark).Below bound :=
  fun below => not_below_made bound below.1

end Mark

namespace Expr

variable {tree other node built root subtree replacement child : Expr} {parts : List Expr}
  {start : Nat} {name : String}

/-- No mark of the tree was made from the given number on. -/
def MarkedBelow (start : Nat) (tree : Expr) : Prop :=
  ∀ node ∈ tree.subtrees, node.mark.Below start

theorem isSameNode_iff :
    node.isSameNode other = true ↔ node.mark ≠ .unset ∧ node.mark = other.mark := by
  simp [isSameNode, Mark.agrees]

theorem mark_node (inner : tree.isLeaf = false) : tree.mark = tree.givenMark := by
  cases tree <;> first | rfl | cases inner

/-! ## Nodes that stay -/

theorem forall₂_of_allOk {Item : Type} {compute : Item → Except NodeError Expr}
    {items : List Item} {results : List Expr} (ok : allOk (items.map compute) = .ok results) :
    List.Forall₂ (fun item result => compute item = .ok result) items results := by
  induction items generalizing results with
  | nil =>
      cases ok
      exact .nil
  | cons item items ih =>
      rw [List.map_cons, allOk] at ok
      cases first : compute item with
      | error fault => simp [first, bind, Except.bind] at ok
      | ok result =>
          cases rest : allOk (items.map compute) with
          | error fault => simp [first, rest, bind, Except.bind] at ok
          | ok others =>
              rw [first, rest] at ok
              cases ok
              exact .cons first (ih rest)

/-- What the step makes of an inner node that stays. -/
theorem introduce_node_cases (inner : tree.isLeaf = false) (different : ¬(tree == subtree) = true)
    (ok : introduce subtree replacement tree root.subtrees = .ok built) :
    ∃ parts, List.Forall₂
        (fun child part => introduce subtree replacement child root.subtrees = .ok part)
        tree.children parts ∧
      (firstEqual root.subtrees tree).withParts replacement parts = .ok built := by
  rw [introduce_node inner, if_neg different] at ok
  cases all : allOk (tree.children.map (introduce subtree replacement · root.subtrees)) with
  | error fault => simp [all, bind, Except.bind] at ok
  | ok parts =>
      rw [all] at ok
      exact ⟨parts, forall₂_of_allOk all, ok⟩

/-- The step leaves a tree as it is or gives it a node with a new mark. -/
theorem introduce_unmarked_or_new (exact : root.IsExact) (new : replacement.mark = .made start)
    (below : tree ∈ root.subtrees)
    (ok : introduce subtree replacement tree root.subtrees = .ok built) :
    built.unmarked = tree.unmarked ∨
      ∀ old : Expr, old.mark.Below start → built.isSameNode old = false := by
  have notSame {mark : Mark} (isNew : ¬mark.Below start) (marked : built.mark = mark) (old : Expr)
      (oldBelow : old.mark.Below start) : built.isSameNode old = false := by
    rw [Bool.eq_false_iff, Ne, isSameNode_iff, marked]
    rintro ⟨_, same⟩
    exact isNew (same ▸ oldBelow)
  have ⟨member, same⟩ := firstEqual_mem exact below
  by_cases isLeaf : tree.isLeaf = true
  · rw [introduce_leaf isLeaf] at ok
    cases ok
    exact .inl same
  · have inner : tree.isLeaf = false := by simpa using isLeaf
    by_cases equal : (tree == subtree) = true
    · rw [introduce_node inner, if_pos equal] at ok
      cases ok
      exact .inr (notSame (Mark.not_below_made start) new)
    · obtain ⟨parts, _, made⟩ := introduce_node_cases inner equal ok
      have firstInner : (firstEqual root.subtrees tree).isLeaf = false := by
        rwa [← isLeaf_unmarked, same, isLeaf_unmarked]
      rcases withParts_cases firstInner made with ⟨rfl, _⟩ | ⟨head, _, mark, _⟩
      · exact .inl same
      · rw [new] at mark
        rw [← mark_node (by rwa [Expr.isLeaf, head])] at mark
        rcases Mark.renewed_cases start with unset | ⟨_, remade⟩
        · refine .inr fun old _ => ?_
          rw [Bool.eq_false_iff, Ne, isSameNode_iff]
          exact fun sameNode => sameNode.1 (mark.trans unset)
        · exact .inr (notSame (Mark.not_below_remade start _) (mark.trans remade))

/-! ## Replacement -/

/-- The tree with a replacement in place of a subtree, without marks. -/
def replaced (tree subtree replacement : Expr) : Expr :=
  fold unmarked (fun node parts =>
    if node == subtree then replacement.unmarked
    else (node.replaceChildren parts).withMark .unset) tree

theorem replaced_leaf (isLeaf : tree.isLeaf = true) :
    tree.replaced subtree replacement = tree.unmarked :=
  fold_leaf isLeaf

theorem replaced_subtree (inner : tree.isLeaf = false) (equal : (tree == subtree) = true) :
    tree.replaced subtree replacement = replacement.unmarked :=
  (fold_node inner).trans (if_pos equal)

section Different

variable (inner : tree.isLeaf = false) (different : ¬(tree == subtree) = true)
include inner different

theorem replaced_node :
    tree.replaced subtree replacement =
      (tree.replaceChildren
        (tree.children.map (replaced · subtree replacement))).withMark .unset :=
  (fold_node inner).trans (if_neg different)

theorem head_replaced : (tree.replaced subtree replacement).head = tree.head := by
  rw [replaced_node inner different, head_withMark, head_replaceChildren]

theorem children_replaced :
    (tree.replaced subtree replacement).children =
      tree.children.map (replaced · subtree replacement) := by
  rw [replaced_node inner different, children_withMark, children_replaceChildren]
  rw [List.length_map, Expr.arity]

theorem unmarked_eq_replaced (head : built.head = tree.head)
    (children : built.children.map unmarked = tree.children.map (replaced · subtree replacement)) :
    built.unmarked = tree.replaced subtree replacement := by
  apply ext_node
  · rwa [isLeaf_unmarked, Expr.isLeaf, head]
  · rw [head_unmarked, head, head_replaced inner different]
  · rw [children_unmarked, children, children_replaced inner different]
  · rw [givenMark_unmarked, replaced_node inner different, givenMark_withMark]

end Different

/-- Apart from marks, the step is a replacement. -/
theorem unmarked_introduce (exact : root.IsExact) (marked : root.MarkedBelow start)
    (new : replacement.mark = .made start) (below : tree ∈ root.subtrees)
    (ok : introduce subtree replacement tree root.subtrees = .ok built) :
    built.unmarked = tree.replaced subtree replacement := by
  induction tree using induction_children generalizing built with
  | leaf tree isLeaf =>
      rw [introduce_leaf isLeaf] at ok
      cases ok
      rw [replaced_leaf isLeaf]
      exact (firstEqual_mem exact below).2
  | node tree inner ih =>
      by_cases equal : (tree == subtree) = true
      · rw [introduce_node inner, if_pos equal] at ok
        cases ok
        rw [replaced_subtree inner equal]
      · obtain ⟨parts, oks, made⟩ := introduce_node_cases inner equal ok
        have childBelow (child : Expr) (mem : child ∈ tree.children) : child ∈ root.subtrees :=
          subtrees_subset_of_mem below (mem_subtrees_of_mem_children mem)
        have replacedParts :
            parts.map unmarked = tree.children.map (replaced · subtree replacement) := by
          rw [← List.forall₂_eq_eq_eq, List.forall₂_map_left_iff, List.forall₂_map_right_iff]
          refine (List.forall₂_iff_zip.mpr ⟨oks.length_eq, fun {child part} pair => ?_⟩).flip
          have mem := (List.of_mem_zip pair).1
          exact ih child mem (childBelow child mem) (List.forall₂_zip oks pair)
        have ⟨member, same⟩ := firstEqual_mem exact below
        have firstInner : (firstEqual root.subtrees tree).isLeaf = false := by
          rwa [← isLeaf_unmarked, same, isLeaf_unmarked]
        have ⟨sameHead, sameChildren⟩ := (unmarked_eq_iff firstInner).mp same
        rcases withParts_cases firstInner made with ⟨keptNode, kept⟩ | ⟨head, children, _, _⟩
        · apply unmarked_eq_replaced inner equal (keptNode ▸ sameHead)
          rw [← replacedParts, keptNode, sameChildren]
          have arity : (firstEqual root.subtrees tree).children.length = tree.children.length := by
            simpa using congrArg List.length sameChildren
          apply List.ext_getElem (by simpa using oks.length_eq)
          intro index inBounds partInBounds
          rw [List.length_map] at inBounds partInBounds
          rw [List.getElem_map, List.getElem_map]
          -- A child that was kept bears an old mark, so the step left it as it is.
          have old := List.getElem_mem (arity ▸ inBounds)
          have sameNode := kept (parts[index], (firstEqual root.subtrees tree).children[index])
            (List.mem_iff_getElem.mpr ⟨index, by simp [partInBounds, arity, inBounds], by simp⟩)
          have childOk := oks.get inBounds partInBounds
          rcases introduce_unmarked_or_new exact new
            (childBelow _ (List.getElem_mem inBounds)) childOk with unchanged | isNew
          · exact unchanged.symm
          · have oldBelow := subtrees_subset_of_mem member (mem_subtrees_of_mem_children old)
            exact absurd sameNode (Bool.eq_false_iff.mp (isNew _ (marked _ oldBelow)))
        · apply unmarked_eq_replaced inner equal (head.trans sameHead)
          rw [children, replacedParts]

/-! ## What a replacement leaves -/

/-- A tree in which the variable does not appear was left as it is. -/
theorem replaced_eq_unmarked (isVariable : replacement.asVar? = some name)
    (absent : name ∉ (tree.replaced subtree replacement).occurrences) :
    tree.replaced subtree replacement = tree.unmarked := by
  induction tree using induction_children with
  | leaf tree isLeaf => exact replaced_leaf isLeaf
  | node tree inner ih =>
      by_cases equal : (tree == subtree) = true
      · rw [replaced_subtree inner equal] at absent
        refine absurd (mem_occurrences_iff.mpr ⟨_, mem_subtrees_self, ?_⟩) absent
        rw [asVar?_unmarked, isVariable]
      · symm
        apply unmarked_eq_replaced inner equal rfl
        refine List.map_congr_left fun child member => (ih child member ?_).symm
        refine fun occurs => absent (occurrences_subset_of_mem ?_ occurs)
        apply mem_subtrees_of_mem_children
        rw [children_replaced inner equal]
        exact List.mem_map_of_mem member

/-- The replaced subtree is gone, if the new variable is not one of its own. -/
theorem not_mem_subtrees_replaced (exact : root.IsExact) (below : tree ∈ root.subtrees)
    (isVariable : replacement.asVar? = some name) (fresh : name ∉ subtree.occurrences)
    (subtreeInner : subtree.isLeaf = false) :
    subtree.unmarked ∉ (tree.replaced subtree replacement).subtrees := by
  have notLeaf {leaf : Expr} (isLeaf : leaf.isLeaf = true) :
      subtree.unmarked ∉ leaf.unmarked.subtrees := by
    rw [mem_subtrees_iff, children_unmarked, children_leaf isLeaf]
    rintro (same | ⟨child, member, _⟩)
    · rw [← isLeaf_unmarked, same, isLeaf_unmarked, isLeaf] at subtreeInner
      cases subtreeInner
    · exact absurd member List.not_mem_nil
  induction tree using induction_children with
  | leaf tree isLeaf =>
      rw [replaced_leaf isLeaf]
      exact notLeaf isLeaf
  | node tree inner ih =>
      by_cases equal : (tree == subtree) = true
      · rw [replaced_subtree inner equal]
        cases replacement <;> first | exact notLeaf rfl | cases isVariable
      · rw [mem_subtrees_iff, children_replaced inner equal]
        rintro (same | ⟨part, member, deeper⟩)
        · -- The variable would appear in the subtree, or the tree would be the subtree.
          have unchanged : tree.replaced subtree replacement = tree.unmarked := by
            apply replaced_eq_unmarked isVariable
            rw [← same, occurrences_unmarked]
            exact fresh
          rw [unchanged] at same
          exact equal ((beq_iff_of_mem exact below).mpr same.symm)
        · obtain ⟨child, mem, rfl⟩ := List.mem_map.mp member
          exact ih child mem
            (subtrees_subset_of_mem below (mem_subtrees_of_mem_children mem)) deeper

/-- A step leaves no occurrence of the hoisted subtree. -/
theorem unmarked_ne_of_introduce (exact : root.IsExact) (marked : root.MarkedBelow start)
    (fresh : name ∉ root.occurrences) (below : subtree ∈ root.subtrees)
    (inner : subtree.isLeaf = false)
    (ok : introduce subtree (.var name (.made start)) root root.subtrees = .ok built)
    (member : node ∈ built.subtrees) : node.unmarked ≠ subtree.unmarked := by
  have absent : subtree.unmarked ∉
      (root.replaced subtree (.var name (.made start))).subtrees :=
    not_mem_subtrees_replaced exact mem_subtrees_self rfl
      (fun occurs => fresh (occurrences_subset_of_mem below occurs)) inner
  rw [← unmarked_introduce exact marked rfl mem_subtrees_self ok, subtrees_unmarked] at absent
  exact fun same => absent (List.mem_map.mpr ⟨node, member, same⟩)

/-- The number of inner nodes. -/
def innerNodes : Expr → Nat := fold (fun _ => 0) fun _ counts => counts.sum + 1

theorem innerNodes_leaf (isLeaf : tree.isLeaf = true) : tree.innerNodes = 0 := fold_leaf isLeaf

theorem innerNodes_node (inner : tree.isLeaf = false) :
    tree.innerNodes = (tree.children.map innerNodes).sum + 1 :=
  fold_node inner

theorem innerNodes_unmarked : tree.unmarked.innerNodes = tree.innerNodes := by
  induction tree using induction_children with
  | leaf tree isLeaf =>
      rw [innerNodes_leaf isLeaf, innerNodes_leaf (by rwa [isLeaf_unmarked])]
  | node tree inner ih =>
      rw [innerNodes_node inner, innerNodes_node (by rwa [isLeaf_unmarked]), children_unmarked,
        List.map_map]
      exact congrArg (List.sum · + 1) (List.map_congr_left ih)

theorem innerNodes_le_size : tree.innerNodes ≤ tree.size := by
  induction tree using induction_children with
  | leaf tree isLeaf =>
      rw [innerNodes_leaf isLeaf]
      exact Nat.zero_le _
  | node tree inner ih =>
      rw [innerNodes_node inner, size_node inner]
      generalize tree.children = children at ih
      induction children with
      | nil => exact Nat.le_refl 1
      | cons child children tailIH =>
          have first := ih child List.mem_cons_self
          have rest := tailIH fun child member => ih child (List.mem_cons_of_mem _ member)
          simp only [List.map_cons, List.sum_cons, List.foldr_cons]
          omega

/-- A replacement by a leaf adds no inner nodes, and where the subtree occurs it
removes some. -/
theorem innerNodes_replaced (exact : root.IsExact) (below : tree ∈ root.subtrees)
    (isLeaf : replacement.isLeaf = true) (subtreeInner : subtree.isLeaf = false) :
    (tree.replaced subtree replacement).innerNodes ≤ tree.innerNodes ∧
      (subtree ∈ tree.subtrees →
        (tree.replaced subtree replacement).innerNodes < tree.innerNodes) := by
  induction tree using induction_children with
  | leaf tree treeLeaf =>
      rw [replaced_leaf treeLeaf, innerNodes_unmarked, mem_subtrees_iff, children_leaf treeLeaf]
      refine ⟨Nat.le_refl _, ?_⟩
      rintro (rfl | ⟨child, member, _⟩)
      · rw [treeLeaf] at subtreeInner
        cases subtreeInner
      · exact absurd member List.not_mem_nil
  | node tree inner ih =>
      by_cases equal : (tree == subtree) = true
      · rw [replaced_subtree inner equal, innerNodes_unmarked, innerNodes_leaf isLeaf,
          innerNodes_node inner]
        exact ⟨Nat.zero_le _, fun _ => Nat.succ_pos _⟩
      · have stays : (tree.replaced subtree replacement).isLeaf = false := by
          rwa [Expr.isLeaf, head_replaced inner equal]
        have each (child : Expr) (mem : child ∈ tree.children) :=
          ih child mem (subtrees_subset_of_mem below (mem_subtrees_of_mem_children mem))
        rw [innerNodes_node stays, innerNodes_node inner, children_replaced inner equal,
          List.map_map]
        constructor
        · exact Nat.succ_le_succ (List.sum_le_sum fun child mem => (each child mem).1)
        · intro occurs
          rcases mem_subtrees_iff.mp occurs with rfl | ⟨child, mem, deeper⟩
          · exact absurd ((beq_iff_of_mem exact below).mpr rfl) equal
          · exact Nat.succ_lt_succ (List.sum_lt_sum _ _ (fun child mem => (each child mem).1)
              ⟨child, mem, (each child mem).2 deeper⟩)

/-- A step removes inner nodes. -/
theorem innerNodes_introduce_lt (exact : root.IsExact) (marked : root.MarkedBelow start)
    (new : replacement.mark = .made start) (isLeaf : replacement.isLeaf = true)
    (below : subtree ∈ root.subtrees) (inner : subtree.isLeaf = false)
    (ok : introduce subtree replacement root root.subtrees = .ok built) :
    built.innerNodes < root.innerNodes := by
  rw [← innerNodes_unmarked, unmarked_introduce exact marked new mem_subtrees_self ok]
  exact (innerNodes_replaced exact mem_subtrees_self isLeaf inner).2 below

end Expr

end SymbolicAlgebra
