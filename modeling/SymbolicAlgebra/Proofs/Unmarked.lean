import Mathlib.Data.List.Forall2
import Mathlib.Data.List.MinMax
import Mathlib.Tactic.ByContra
import SymbolicAlgebra.Expr.Build
import SymbolicAlgebra.Expr.Make
import SymbolicAlgebra.Expr.Structure
import SymbolicAlgebra.Proofs.FractionArithmetic

/-!
# Trees without their marks

A node is a leaf, or it has a head and children.  Functions that fold a tree and
proofs by induction need no more than this distinction, so the constructors are
looked at only once, in the lemmas of the first section.

Two trees of exact numbers are equal in the sense of `==` exactly when they are
the same tree once all marks are removed.
-/

namespace SymbolicAlgebra

namespace Expr

variable {tree other child : Expr}

/-! ## Leaves and nodes -/

section Fold

variable {Result : Type} {leaf : Expr → Result} {node : Expr → List Result → Result}

theorem foldAll_eq_map (trees : List Expr) :
    foldAll leaf node trees = trees.map (fold leaf node) := by
  induction trees with
  | nil => rfl
  | cons tree trees ih => rw [foldAll, ih, List.map_cons]

theorem fold_leaf (isLeaf : tree.isLeaf = true) : fold leaf node tree = leaf tree := by
  cases tree <;> first | rfl | simp [Expr.isLeaf, head] at isLeaf

theorem fold_node (inner : tree.isLeaf = false) :
    fold leaf node tree = node tree (tree.children.map (fold leaf node)) := by
  cases tree with
  | array items mark => rw [fold, foldAll_eq_map]; rfl
  | _ => first | rfl | simp [Expr.isLeaf, head] at inner

end Fold

theorem children_leaf (isLeaf : tree.isLeaf = true) : tree.children = [] := by
  cases tree <;> first | rfl | simp [Expr.isLeaf, head] at isLeaf

/-- The inner node with the given head, children and mark. -/
def ofParts : Head → List Expr → Mark → Expr
  | .array, items, mark => .array items mark
  | .operator (.unary op), [operand], mark => .unary op operand mark
  | .operator (.arith op), [left, right], mark => .arith op left right mark
  | .operator (.relation comparison), [left, right], mark => .relation comparison left right mark
  | .operator (.connective link), [left, right], mark => .connective link left right mark
  | .function (.unary function), [argument], mark => .call function argument mark
  | .function (.binary function), [first, second], mark => .call₂ function first second mark
  | .construct .conditional, [test, consequence, alternative], mark =>
      .conditional test consequence alternative mark
  | .construct .whileLoop, [test, body], mark => .whileLoop test body mark
  | .construct .forLoop, [start, test, step, body], mark => .forLoop start test step body mark
  | .construct .summation, [body, index, first, last], mark =>
      .summation body index first last mark
  | .construct .pause, [seconds], mark => .pause seconds mark
  | .construct .assignment, [target, value], mark => .assignment target value mark
  | _, _, mark => .array [] mark

theorem ofParts_self (inner : tree.isLeaf = false) :
    ofParts tree.head tree.children tree.givenMark = tree := by
  cases tree <;> first | rfl | simp [Expr.isLeaf, head] at inner

/-- Inner nodes with the same head, children and mark are equal. -/
theorem ext_node (inner : tree.isLeaf = false) (head : tree.head = other.head)
    (children : tree.children = other.children) (mark : tree.givenMark = other.givenMark) :
    tree = other := by
  have otherInner : other.isLeaf = false := by rwa [Expr.isLeaf, ← head]
  rw [← ofParts_self inner, head, children, mark, ofParts_self otherInner]

@[simp] theorem head_withMark (mark : Mark) : (tree.withMark mark).head = tree.head := by
  cases tree <;> rfl

@[simp] theorem isLeaf_withMark (mark : Mark) : (tree.withMark mark).isLeaf = tree.isLeaf := by
  rw [Expr.isLeaf, head_withMark, Expr.isLeaf]

@[simp] theorem children_withMark (mark : Mark) :
    (tree.withMark mark).children = tree.children := by
  cases tree <;> rfl

@[simp] theorem givenMark_withMark (mark : Mark) : (tree.withMark mark).givenMark = mark := by
  cases tree <;> rfl

theorem head_replaceChildren (children : List Expr) :
    (tree.replaceChildren children).head = tree.head := by
  unfold replaceChildren
  split <;> rfl

theorem children_replaceChildren {children : List Expr} (arity : children.length = tree.arity) :
    (tree.replaceChildren children).children = children := by
  -- No constructor but that of arrays has more than four children.
  rcases children with _ | ⟨_, _ | ⟨_, _ | ⟨_, _ | ⟨_, _ | ⟨_, _⟩⟩⟩⟩⟩ <;> cases tree <;>
    first | rfl | simp [Expr.arity, Expr.children] at arity

/-! ## Induction -/

theorem size_node (inner : tree.isLeaf = false) :
    tree.size = (tree.children.map size).foldr (· + ·) 1 :=
  fold_node inner

theorem isLeaf_of_mem_children (member : child ∈ tree.children) : tree.isLeaf = false := by
  by_contra isLeaf
  rw [children_leaf (by simpa using isLeaf)] at member
  exact List.not_mem_nil member

theorem size_lt_of_mem_children (member : child ∈ tree.children) : child.size < tree.size := by
  have inner := isLeaf_of_mem_children member
  have below (trees : List Expr) (mem : child ∈ trees) :
      child.size < (trees.map size).foldr (· + ·) 1 := by
    induction trees with
    | nil => exact absurd mem List.not_mem_nil
    | cons first rest ih =>
        rw [List.map_cons, List.foldr_cons]
        rcases List.mem_cons.mp mem with rfl | mem
        · have positive : 0 < (rest.map size).foldr (· + ·) 1 := by
            clear ih mem
            induction rest with
            | nil => exact Nat.one_pos
            | cons next rest ih => exact Nat.add_pos_right _ ih
          omega
        · have := ih mem
          omega
  rw [size_node inner]
  exact below _ member

/-- Induction over trees: a property of all leaves that an inner node has when
its children have it. -/
theorem induction_children {motive : Expr → Prop}
    (leaf : ∀ tree, tree.isLeaf = true → motive tree)
    (node : ∀ tree, tree.isLeaf = false → (∀ child ∈ tree.children, motive child) → motive tree)
    (tree : Expr) : motive tree := by
  induction size : tree.size using Nat.strongRecOn generalizing tree with
  | ind bound ih =>
      by_cases isLeaf : tree.isLeaf = true
      · exact leaf tree isLeaf
      · refine node tree (by simpa using isLeaf) fun child member => ?_
        exact ih child.size (size ▸ size_lt_of_mem_children member) child rfl

/-! ## Subtrees and variables -/

/-- All subtrees, children before their parents. -/
def subtrees : Expr → List Expr :=
  fold (fun leaf => [leaf]) fun node parts => parts.flatten ++ [node]

theorem subtrees_eq (tree : Expr) : tree.subtrees = tree.children.flatMap subtrees ++ [tree] := by
  by_cases isLeaf : tree.isLeaf = true
  · rw [subtrees, fold_leaf isLeaf, children_leaf isLeaf]
    rfl
  · rw [subtrees, fold_node (by simpa using isLeaf), List.flatMap]

theorem mem_subtrees_iff :
    other ∈ tree.subtrees ↔ other = tree ∨ ∃ child ∈ tree.children, other ∈ child.subtrees := by
  rw [subtrees_eq, List.mem_append, List.mem_flatMap, List.mem_singleton, or_comm]

theorem mem_subtrees_self : tree ∈ tree.subtrees := mem_subtrees_iff.mpr (.inl rfl)

theorem subtrees_subset_of_mem_children (member : child ∈ tree.children) :
    child.subtrees ⊆ tree.subtrees :=
  fun _ below => mem_subtrees_iff.mpr (.inr ⟨child, member, below⟩)

theorem mem_subtrees_of_mem_children (member : child ∈ tree.children) : child ∈ tree.subtrees :=
  subtrees_subset_of_mem_children member mem_subtrees_self

theorem subtrees_subset_of_mem (member : other ∈ tree.subtrees) :
    other.subtrees ⊆ tree.subtrees := by
  induction tree using induction_children with
  | leaf tree isLeaf =>
      rw [mem_subtrees_iff, children_leaf isLeaf] at member
      rcases member with rfl | ⟨child, mem, _⟩
      · exact fun _ below => below
      · exact absurd mem List.not_mem_nil
  | node tree inner ih =>
      rcases mem_subtrees_iff.mp member with rfl | ⟨child, mem, below⟩
      · exact fun _ below => below
      · exact fun _ deeper => subtrees_subset_of_mem_children mem (ih child mem below deeper)

/-- The length of the longest path from the root to a leaf. -/
def height : Expr → Nat :=
  fold (fun _ => 0) fun _ heights => (heights.map (· + 1)).foldr max 0

theorem height_eq (tree : Expr) :
    tree.height = (tree.children.map (·.height + 1)).foldr max 0 := by
  by_cases isLeaf : tree.isLeaf = true
  · rw [height, fold_leaf isLeaf, children_leaf isLeaf]
    rfl
  · rw [height, fold_node (by simpa using isLeaf), List.map_map]
    rfl

theorem height_lt_of_mem_children (member : child ∈ tree.children) :
    child.height < tree.height := by
  rw [height_eq tree]
  have listed : child.height + 1 ∈ tree.children.map (·.height + 1) := List.mem_map_of_mem member
  exact List.le_max_of_le' 0 listed (Nat.le_refl _)

theorem height_le_of_mem_subtrees (member : other ∈ tree.subtrees) :
    other.height ≤ tree.height := by
  induction tree using induction_children with
  | leaf tree isLeaf =>
      rw [mem_subtrees_iff, children_leaf isLeaf] at member
      rcases member with rfl | ⟨child, mem, _⟩
      · exact Nat.le_refl _
      · exact absurd mem List.not_mem_nil
  | node tree inner ih =>
      rcases mem_subtrees_iff.mp member with rfl | ⟨child, mem, below⟩
      · exact Nat.le_refl _
      · exact (ih child mem below).trans (height_lt_of_mem_children mem).le

theorem mem_occurrences_node {name : String} (inner : tree.isLeaf = false) :
    name ∈ tree.occurrences ↔ ∃ child ∈ tree.children, name ∈ child.occurrences := by
  rw [occurrences, fold_node inner]
  simp

theorem mem_occurrences_iff {name : String} :
    name ∈ tree.occurrences ↔ ∃ leaf ∈ tree.subtrees, leaf.asVar? = some name := by
  induction tree using induction_children with
  | leaf tree isLeaf =>
      rw [occurrences, fold_leaf isLeaf, subtrees, fold_leaf isLeaf]
      simp
  | node tree inner ih =>
      have notVar : tree.asVar? ≠ some name := by
        cases tree <;> simp_all [asVar?, Expr.isLeaf, head]
      rw [mem_occurrences_node inner]
      constructor
      · rintro ⟨child, mem, occurs⟩
        obtain ⟨leaf, below, found⟩ := (ih child mem).mp occurs
        exact ⟨leaf, subtrees_subset_of_mem_children mem below, found⟩
      · rintro ⟨leaf, below, found⟩
        rcases mem_subtrees_iff.mp below with rfl | ⟨child, mem, deeper⟩
        · exact absurd found notVar
        · exact ⟨child, mem, (ih child mem).mpr ⟨leaf, deeper, found⟩⟩

theorem occurrences_subset_of_mem (member : other ∈ tree.subtrees) :
    other.occurrences ⊆ tree.occurrences := by
  intro name occurs
  obtain ⟨leaf, below, found⟩ := mem_occurrences_iff.mp occurs
  exact mem_occurrences_iff.mpr ⟨leaf, subtrees_subset_of_mem member below, found⟩

theorem containsVariable_iff {name : String} :
    tree.containsVariable name = true ↔ name ∈ tree.occurrences := by
  induction tree using induction_children with
  | leaf tree isLeaf =>
      rw [containsVariable, fold_leaf isLeaf, occurrences, fold_leaf isLeaf]
      simp
  | node tree inner ih =>
      rw [containsVariable, fold_node inner, mem_occurrences_node inner]
      simp only [List.any_map, List.any_eq_true]
      exact exists_congr fun child => and_congr_right fun mem => ih child mem

/-! ## Removing marks -/

/-- The tree without its marks. -/
def unmarked : Expr → Expr :=
  fold (withMark .unset) fun node parts => (node.replaceChildren parts).withMark .unset

theorem unmarked_leaf (isLeaf : tree.isLeaf = true) : tree.unmarked = tree.withMark .unset :=
  fold_leaf isLeaf

theorem unmarked_node (inner : tree.isLeaf = false) :
    tree.unmarked = (tree.replaceChildren (tree.children.map unmarked)).withMark .unset :=
  fold_node inner

@[simp] theorem head_unmarked : tree.unmarked.head = tree.head := by
  by_cases isLeaf : tree.isLeaf = true
  · rw [unmarked_leaf isLeaf, head_withMark]
  · rw [unmarked_node (by simpa using isLeaf), head_withMark, head_replaceChildren]

@[simp] theorem isLeaf_unmarked : tree.unmarked.isLeaf = tree.isLeaf := by
  rw [Expr.isLeaf, head_unmarked, Expr.isLeaf]

theorem children_unmarked : tree.unmarked.children = tree.children.map unmarked := by
  by_cases isLeaf : tree.isLeaf = true
  · rw [unmarked_leaf isLeaf, children_withMark, children_leaf isLeaf, List.map_nil]
  · rw [unmarked_node (by simpa using isLeaf), children_withMark,
      children_replaceChildren (List.length_map unmarked)]

theorem givenMark_unmarked : tree.unmarked.givenMark = .unset := by
  by_cases isLeaf : tree.isLeaf = true
  · rw [unmarked_leaf isLeaf, givenMark_withMark]
  · rw [unmarked_node (by simpa using isLeaf), givenMark_withMark]

/-- Inner nodes are the same without marks when their heads are and their
children are. -/
theorem unmarked_eq_iff (inner : tree.isLeaf = false) :
    tree.unmarked = other.unmarked ↔
      tree.head = other.head ∧ tree.children.map unmarked = other.children.map unmarked := by
  constructor
  · intro same
    rw [← head_unmarked, same, head_unmarked, ← children_unmarked, same, children_unmarked]
    exact ⟨rfl, rfl⟩
  · rintro ⟨head, children⟩
    refine ext_node (by rwa [isLeaf_unmarked]) ?_ ?_ ?_
    · rw [head_unmarked, head_unmarked, head]
    · rw [children_unmarked, children_unmarked, children]
    · rw [givenMark_unmarked, givenMark_unmarked]

theorem height_unmarked : tree.unmarked.height = tree.height := by
  induction tree using induction_children with
  | leaf tree isLeaf =>
      rw [height_eq, height_eq tree, children_unmarked, children_leaf isLeaf]
      rfl
  | node tree inner ih =>
      rw [height_eq, height_eq tree, children_unmarked, List.map_map]
      exact congrArg (List.foldr max 0) (List.map_congr_left fun child member =>
        congrArg (· + 1) (ih child member))

@[simp] theorem unmarked_withMark (mark : Mark) :
    (tree.withMark mark).unmarked = tree.unmarked := by
  by_cases isLeaf : tree.isLeaf = true
  · rw [unmarked_leaf (by rwa [isLeaf_withMark]), unmarked_leaf isLeaf]
    cases tree <;> rfl
  · refine (unmarked_eq_iff (by rw [isLeaf_withMark]; simpa using isLeaf)).mpr ?_
    rw [head_withMark, children_withMark]
    exact ⟨rfl, rfl⟩

end Expr

/-! ## Equality of trees -/

namespace Expr

variable {tree other : Expr}

/-- The tree holds no doubles. -/
def IsExact (tree : Expr) : Prop :=
  ∀ leaf ∈ tree.subtrees, ∀ number, leaf.asNumber? = some number → number.isExact = true

instance : Decidable tree.IsExact :=
  decidable_of_iff (∀ leaf ∈ tree.subtrees, leaf.asNumber?.all Number.isExact = true) <|
    forall₂_congr fun leaf _ => by simp [Option.all_eq_true]

theorem IsExact.of_mem_children {child : Expr} (exact : tree.IsExact)
    (member : child ∈ tree.children) : child.IsExact :=
  fun leaf below => exact leaf (subtrees_subset_of_mem_children member below)

theorem agreeAll_iff_forall₂ {trees others : List Expr} :
    agreeAll trees others = true ↔
      List.Forall₂ (fun tree other => agree tree other = true) trees others := by
  induction trees generalizing others with
  | nil => cases others <;> simp [agreeAll]
  | cons tree trees ih => cases others <;> simp [agreeAll, ih]

theorem agreeAll_iff_map {trees others : List Expr}
    (agrees : ∀ tree ∈ trees, ∀ other, agree tree other = true ↔ tree.unmarked = other.unmarked) :
    agreeAll trees others = true ↔ trees.map unmarked = others.map unmarked := by
  induction trees generalizing others with
  | nil => cases others <;> simp [agreeAll]
  | cons tree trees ih =>
      cases others with
      | nil => simp [agreeAll]
      | cons other others =>
          rw [agreeAll, Bool.and_eq_true, agrees tree List.mem_cons_self,
            ih fun tree member => agrees tree (List.mem_cons_of_mem _ member)]
          simp

theorem agree_node_iff (inner : tree.isLeaf = false) :
    agree tree other = true ↔
      tree.head = other.head ∧ agreeAll tree.children other.children = true := by
  cases tree <;> first | (simp [Expr.isLeaf, head] at inner; done) | cases other <;> first
    | exact iff_of_false Bool.false_ne_true fun same => nomatch same.1
    | simp [agree, agreeAll, head, children, and_assoc]

theorem agree_leaf_iff (isLeaf : tree.isLeaf = true) (exact : tree.IsExact) :
    agree tree other = true ↔ tree.withMark .unset = other.withMark .unset := by
  have numbers := exact tree mem_subtrees_self
  cases tree <;> cases other <;>
    simp_all [agree, withMark, head, Expr.isLeaf, asNumber?, Number.beq_iff_eq_of_isExact,
      Number.isNaN_eq_false_of_isExact]

/-- Trees of exact numbers are equal when they are the same without marks. -/
theorem agree_iff_unmarked_eq (exact : tree.IsExact) :
    agree tree other = true ↔ tree.unmarked = other.unmarked := by
  induction tree using induction_children generalizing other with
  | leaf tree isLeaf =>
      rw [agree_leaf_iff isLeaf exact, unmarked_leaf isLeaf]
      by_cases otherLeaf : other.isLeaf = true
      · rw [unmarked_leaf otherLeaf]
      · refine iff_of_false (fun same => otherLeaf ?_) fun same => otherLeaf ?_
        · rw [← isLeaf_withMark .unset, ← same, isLeaf_withMark, isLeaf]
        · rw [← isLeaf_unmarked, ← same, isLeaf_withMark, isLeaf]
  | node tree inner ih =>
      rw [agree_node_iff inner, unmarked_eq_iff inner,
        agreeAll_iff_map fun child member _ => ih child member (exact.of_mem_children member)]

end Expr

end SymbolicAlgebra
