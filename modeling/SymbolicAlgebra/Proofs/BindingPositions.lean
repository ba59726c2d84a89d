import SymbolicAlgebra.Proofs.Hoisting

/-!
# Substitution and positions that bind

An assignment and a sum give values to the variable in one of their places, and checked
construction asks for a variable there.  Substitution treats these places like all
others.  So it leads to a tree that checked construction rejects as soon as a tree that is
no variable is put in place of a name that is assigned or summed over, and it does not
stop at a sum over the name that it replaces.

Both statements are exact.  For the second one, `pluggedFree` is the substitution that
leaves the summand and the index of a sum over the name as they are.
-/

namespace SymbolicAlgebra

section Related

variable {First Second : Type} {related : First → Second → Prop} {items : List First}
  {others : List Second}

theorem rel_getElem?_of_forall₂ (all : List.Forall₂ related items others) (place : Nat) :
    Option.Rel related items[place]? others[place]? := by
  induction all generalizing place with
  | nil => exact .none
  | cons first _ ih =>
      cases place with
      | zero => exact .some first
      | succ place => exact ih place

theorem forall_mem_iff_of_forall₂ {holds : Second → Prop} {expected : First → Prop}
    (all : List.Forall₂ related items others)
    (each : ∀ item ∈ items, ∀ other, related item other → (holds other ↔ expected item)) :
    (∀ other ∈ others, holds other) ↔ ∀ item ∈ items, expected item := by
  induction all with
  | nil => simp
  | cons first _ ih =>
      rw [List.forall_mem_cons] at each
      rw [List.forall_mem_cons, List.forall_mem_cons, each.1 _ first, ih each.2]

end Related

namespace Expr

variable {tree other replacement : Expr} {name : String}

/-! ## Binding positions -/

/-- Which child of a node has to be a variable: the target of an assignment and the index
of a sum. -/
def bindingPlace? : Head → Option Nat
  | .construct .summation => some 1
  | .construct .assignment => some 0
  | _ => none

/-- The child that has to be a variable. -/
def binder? (tree : Expr) : Option Expr :=
  (bindingPlace? tree.head).bind fun place => tree.children[place]?

/-- The name that a sum runs over. -/
def indexName? : Expr → Option String
  | .summation _ index _ _ _ => index.asVar?
  | _ => none

/-- The names that the tree assigns or sums over. -/
def boundNames (tree : Expr) : List String :=
  tree.subtrees.filterMap fun node => node.binder?.bind asVar?

/-- The names that the tree sums over. -/
def indexNames (tree : Expr) : List String := tree.subtrees.filterMap indexName?

theorem exists_mem_subtrees_iff {condition : Expr → Prop} :
    (∃ node ∈ tree.subtrees, condition node) ↔
      condition tree ∨ ∃ child ∈ tree.children, ∃ node ∈ child.subtrees, condition node := by
  constructor
  · rintro ⟨node, below, holds⟩
    rcases mem_subtrees_iff.mp below with rfl | ⟨child, member, deeper⟩
    · exact .inl holds
    · exact .inr ⟨child, member, node, deeper, holds⟩
  · rintro (holds | ⟨child, member, node, deeper, holds⟩)
    · exact ⟨tree, mem_subtrees_self, holds⟩
    · exact ⟨node, subtrees_subset_of_mem_children member deeper, holds⟩

theorem mem_boundNames_iff : name ∈ tree.boundNames ↔
    tree.binder?.bind asVar? = some name ∨ ∃ child ∈ tree.children, name ∈ child.boundNames := by
  simp only [boundNames, List.mem_filterMap]
  exact exists_mem_subtrees_iff

theorem mem_indexNames_iff : name ∈ tree.indexNames ↔
    tree.indexName? = some name ∨ ∃ child ∈ tree.children, name ∈ child.indexNames := by
  simp only [indexNames, List.mem_filterMap]
  exact exists_mem_subtrees_iff

theorem binder?_leaf (isLeaf : tree.isLeaf = true) : tree.binder? = none := by
  cases tree <;> first | rfl | cases isLeaf

/-! ## Acceptance -/

/-- Checked construction asks of a node that the child in its binding place is a variable. -/
theorem exists_withChildren_self_iff :
    (∃ built, tree.withChildren tree.children = .ok built) ↔
      ∀ slot ∈ tree.binder?, slot.asVar?.isSome = true := by
  cases tree with
  | summation body index first last mark =>
      change (∃ built, (if index.asVar?.isSome = true then _ else _) = Except.ok built) ↔
        ∀ slot ∈ some index, _
      split <;> simp_all
  | assignment target value mark =>
      change (∃ built, (if target.asVar?.isSome = true then _ else _) = Except.ok built) ↔
        ∀ slot ∈ some target, _
      split <;> simp_all
  | _ => exact ⟨fun _ => nofun, fun _ => ⟨_, rfl⟩⟩

theorem accepted_iff : tree.Accepted ↔
    (∀ slot ∈ tree.binder?, slot.asVar?.isSome = true) ∧
      ∀ child ∈ tree.children, child.Accepted := by
  rw [← exists_withChildren_self_iff]
  constructor
  · exact fun accepted => ⟨accepted tree mem_subtrees_self, fun child member node below =>
      accepted node (subtrees_subset_of_mem_children member below)⟩
  · rintro ⟨self, children⟩ node below
    rcases mem_subtrees_iff.mp below with rfl | ⟨child, member, deeper⟩
    · exact self
    · exact children child member node deeper

namespace SubstitutesTo

/-- What is in the binding place of a node is substituted there. -/
theorem binder (inner : tree.isLeaf = false) (gives : SubstitutesTo name replacement tree other) :
    Option.Rel (SubstitutesTo name replacement) tree.binder? other.binder? := by
  obtain ⟨head, children⟩ := gives.node inner
  rw [binder?, binder?, head]
  cases bindingPlace? tree.head with
  | none => exact .none
  | some place => exact rel_getElem?_of_forall₂ children place

/-- A variable stays one if another name is replaced, or if it is replaced by a variable. -/
theorem isVar_iff (gives : SubstitutesTo name replacement tree other)
    (isVar : tree.asVar?.isSome = true) :
    other.asVar?.isSome = true ↔
      replacement.asVar?.isSome = true ∨ tree.asVar? ≠ some name := by
  have isLeaf : tree.isLeaf = true := by cases tree <;> first | rfl | cases isVar
  rw [gives.leaf isLeaf]
  split <;> simp_all

/-- The tree that substitution gives is accepted unless a tree that is no variable is put
in the place of a bound name. -/
theorem accepted_iff (gives : SubstitutesTo name replacement tree other)
    (accepted : tree.Accepted) (replacementAccepted : replacement.Accepted) :
    other.Accepted ↔ replacement.asVar?.isSome = true ∨ name ∉ tree.boundNames := by
  induction tree using induction_children generalizing other with
  | leaf tree isLeaf =>
      have otherAccepted : other.Accepted := by
        rw [gives.leaf isLeaf]
        split
        · exact replacementAccepted
        · exact accepted
      have unbound : name ∉ tree.boundNames := by
        rw [mem_boundNames_iff, binder?_leaf isLeaf, children_leaf isLeaf]
        simp
      exact iff_of_true otherAccepted (.inr unbound)
  | node tree inner ih =>
      obtain ⟨slots, children⟩ := Expr.accepted_iff.mp accepted
      obtain ⟨-, related⟩ := gives.node inner
      have slot : (∀ slot ∈ other.binder?, slot.asVar?.isSome = true) ↔
          replacement.asVar?.isSome = true ∨ tree.binder?.bind asVar? ≠ some name := by
        have binder := gives.binder inner
        generalize tree.binder? = slot at binder slots
        generalize other.binder? = part at binder
        cases binder with
        | none => simp
        | some related => simpa using related.isVar_iff (slots _ rfl)
      have parts : (∀ part ∈ other.children, part.Accepted) ↔ ∀ child ∈ tree.children,
          replacement.asVar?.isSome = true ∨ name ∉ child.boundNames :=
        forall_mem_iff_of_forall₂ related fun child member part gives =>
          ih child member gives (children child member)
      rw [Expr.accepted_iff, slot, parts, mem_boundNames_iff]
      by_cases isVar : replacement.asVar?.isSome = true <;> simp [isVar]

end SubstitutesTo

/-! ## Free occurrences -/

/-- New parts of a node, but for the summand and the index of a sum over the name. -/
def freeParts (tree : Expr) (name : String) (parts : List Expr) : List Expr :=
  if tree.indexName? = some name then (tree.children.take 2).map unmarked ++ parts.drop 2
  else parts

/-- The tree with a variable replaced where no sum binds it, without marks. -/
def pluggedFree (tree : Expr) (name : String) (replacement : Expr) : Expr :=
  fold (fun leaf => if leaf.asVar? = some name then replacement.unmarked else leaf.unmarked)
    (fun node parts => (node.replaceChildren (node.freeParts name parts)).withMark .unset) tree

theorem pluggedFree_node (inner : tree.isLeaf = false) :
    tree.pluggedFree name replacement = (tree.replaceChildren
      (tree.freeParts name (tree.children.map (pluggedFree · name replacement)))).withMark .unset :=
  fold_node inner

theorem indexName?_leaf (isLeaf : tree.isLeaf = true) : tree.indexName? = none := by
  cases tree <;> first | rfl | cases isLeaf

theorem exists_eq_summation (sums : tree.indexName? = some name) :
    ∃ body inner first last mark, tree = .summation body (.var name inner) first last mark := by
  cases tree with
  | summation body index first last mark =>
      cases index with
      | var other inner =>
          cases sums
          exact ⟨body, inner, first, last, mark, rfl⟩
      | _ => cases sums
  | _ => cases sums

theorem length_freeParts {parts : List Expr} (arity : parts.length = tree.arity) :
    (tree.freeParts name parts).length = tree.arity := by
  unfold freeParts
  split
  · rename_i sums
    obtain ⟨body, inner, first, last, mark, rfl⟩ := exists_eq_summation sums
    simp [arity, children, Expr.arity]
  · exact arity

theorem children_pluggedFree (inner : tree.isLeaf = false) :
    (tree.pluggedFree name replacement).children =
      tree.freeParts name (tree.children.map (pluggedFree · name replacement)) := by
  rw [pluggedFree_node inner, children_withMark,
    children_replaceChildren (length_freeParts (List.length_map _))]

/-- A variable put in place of itself changes nothing. -/
theorem plugged_self (isVar : replacement.asVar? = some name) :
    tree.plugged name replacement = tree.unmarked := by
  induction tree using induction_children with
  | leaf tree isLeaf =>
      rw [plugged_leaf isLeaf]
      split
      · rename_i same
        cases replacement <;> cases tree <;> cases isVar <;> cases same
        rfl
      · rfl
  | node tree inner ih => exact plugged_eq_unmarked inner rfl (List.map_congr_left ih)

theorem pluggedFree_self (isVar : replacement.asVar? = some name) :
    tree.pluggedFree name replacement = tree.unmarked := by
  induction tree using induction_children with
  | leaf tree isLeaf =>
      rw [← plugged_self isVar, plugged, pluggedFree, fold_leaf isLeaf, fold_leaf isLeaf]
  | node tree inner ih =>
      have parts : tree.freeParts name (tree.children.map unmarked) =
          tree.children.map unmarked := by
        rw [freeParts, List.map_take, List.take_append_drop, ite_self]
      rw [pluggedFree_node inner, List.map_congr_left ih, parts, unmarked_node inner]

/-- A variable is replaced everywhere just as it is where it is free, unless there is a sum
over its name and the name is not put in place of itself. -/
theorem plugged_eq_pluggedFree_iff :
    tree.plugged name replacement = tree.pluggedFree name replacement ↔
      replacement.asVar? = some name ∨ name ∉ tree.indexNames := by
  by_cases isVar : replacement.asVar? = some name
  · exact iff_of_true ((plugged_self isVar).trans (pluggedFree_self isVar).symm) (.inl isVar)
  rw [or_iff_right isVar]
  induction tree using induction_children with
  | leaf tree isLeaf =>
      have unbound : name ∉ tree.indexNames := by
        rw [mem_indexNames_iff, indexName?_leaf isLeaf, children_leaf isLeaf]
        simp
      exact iff_of_true (by rw [plugged, pluggedFree, fold_leaf isLeaf, fold_leaf isLeaf]) unbound
  | node tree inner ih =>
      have byChildren : tree.plugged name replacement = tree.pluggedFree name replacement ↔
          tree.children.map (plugged · name replacement) =
            tree.freeParts name (tree.children.map (pluggedFree · name replacement)) := by
        rw [← children_plugged inner, ← children_pluggedFree inner]
        refine ⟨congrArg children, fun same => ext_node ?_ ?_ same ?_⟩
        · rwa [Expr.isLeaf, head_plugged inner]
        · rw [head_plugged inner, pluggedFree_node inner, head_withMark, head_replaceChildren]
        · rw [givenMark_plugged inner, pluggedFree_node inner, givenMark_withMark]
      rw [byChildren, mem_indexNames_iff, freeParts]
      split
      · rename_i sums
        refine iff_of_false (fun same => isVar ?_) (fun unbound => unbound (.inl sums))
        obtain ⟨body, innerMark, first, last, mark, rfl⟩ := exists_eq_summation sums
        -- The second child is the index, which is the replacement on one side.
        have index : (Expr.var name innerMark).plugged name replacement =
            (Expr.var name innerMark).unmarked := (List.cons.inj (List.cons.inj same).2).1
        rw [plugged_leaf rfl, asVar?, if_pos rfl] at index
        rw [← asVar?_unmarked, index]
        rfl
      · rename_i notSum
        rw [List.map_inj_left, forall₂_congr ih]
        simp [notSum]

/-! ## Runs of the substitution -/

/-- In a tree that checked construction accepts, a variable is replaced by another such
tree.  The result is accepted exactly when the replacement is a variable or the name is
neither assigned nor summed over; and what sums bind is left alone exactly when the name is
put in place of itself or is not summed over. -/
theorem substitution_respects_binders_iff (tree replacement : Expr) (accepted : tree.Accepted)
    (replacementAccepted : replacement.Accepted) (name : String) (start : Nat) :
    let substituted := ((tree.substitute name replacement).run start).1
    (substituted.Accepted ↔ replacement.asVar?.isSome = true ∨ name ∉ tree.boundNames) ∧
      (substituted.unmarked = tree.pluggedFree name replacement ↔
        replacement.asVar? = some name ∨ name ∉ tree.indexNames) := by
  intro substituted
  have gives : SubstitutesTo name replacement tree substituted := ⟨start, rfl⟩
  refine ⟨gives.accepted_iff accepted replacementAccepted, ?_⟩
  rw [gives.unmarked_eq]
  exact plugged_eq_pluggedFree_iff

/-- A sum over `i` with another sum over `i` among its bounds. -/
theorem substitution_in_nested_sums :
    let i : Expr := .var "i"
    let tree : Expr := .summation i i (.summation i i (.int 1) (.var "n")) (.var "n")
    let substituted := ((tree.substitute "n" (.int 5)).run 0).1
    (tree.Accepted ∧ (Expr.int 5).Accepted) ∧
      substituted.Accepted ∧ substituted.unmarked = tree.pluggedFree "n" (.int 5) := by
  intro i tree substituted
  have accepted : tree.Accepted := by decide +kernel
  have replacementAccepted : (Expr.int 5).Accepted := by decide +kernel
  have ⟨acceptedIff, freeIff⟩ :=
    substitution_respects_binders_iff tree (.int 5) accepted replacementAccepted "n" 0
  exact ⟨⟨accepted, replacementAccepted⟩, acceptedIff.mpr (.inr (by decide +kernel)),
    freeIff.mpr (.inr (by decide +kernel))⟩

/-- The five in place of the index of `sum(i, i, 1, 3)` leads to `sum(5, 5, 1, 3)`. -/
theorem substitution_replaces_index :
    let i : Expr := .var "i"
    let tree : Expr := .summation i i (.int 1) (.int 3)
    let substituted := ((tree.substitute "i" (.int 5)).run 0).1
    (tree.Accepted ∧ (Expr.int 5).Accepted) ∧
      ¬ substituted.Accepted ∧ substituted.unmarked ≠ tree.pluggedFree "i" (.int 5) := by
  intro i tree substituted
  refine ⟨⟨by decide +kernel, by decide +kernel⟩, by decide +kernel, fun same => ?_⟩
  have index : substituted.unmarked.children.map asVar? =
      (tree.pluggedFree "i" (.int 5)).children.map asVar? := by rw [same]
  revert index
  decide +kernel

end Expr

end SymbolicAlgebra
