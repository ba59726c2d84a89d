import SymbolicAlgebra.Proofs.Inlining

/-!
# Names of auxiliary variables

Each step of hoisting chooses a name that is not in the tree at hand and was not
chosen before.  A variable of the first tree can be missing from the tree at hand
only when it went into the definition of an auxiliary variable.  So a chosen name
is a variable of the first tree exactly when it occurs in an earlier definition.
-/

namespace SymbolicAlgebra

namespace Expr

variable {tree other built subtree : Expr} {name variableName : String} {mark : Mark}

/-! ## Variables after a step -/

/-- How the variables of a tree change when a variable takes the place of a subtree. -/
structure Renames (name : String) (subtree tree built : Expr) : Prop where
  kept : ∀ variableName ∈ tree.occurrences,
    variableName ∈ built.occurrences ∨ variableName ∈ subtree.occurrences
  old : ∀ variableName ∈ built.occurrences, variableName ∈ tree.occurrences ∨ variableName = name

theorem Renames.of_eq (same : built.occurrences = tree.occurrences) :
    Renames name subtree tree built :=
  ⟨fun _ occurs => .inl (same ▸ occurs), fun _ occurs => .inl (same ▸ occurs)⟩

theorem Renames.of_subtree (same : tree.occurrences = subtree.occurrences) :
    Renames name subtree tree (.var name mark) :=
  ⟨fun _ occurs => .inr (same ▸ occurs), fun _ occurs => .inr (by simpa using occurs)⟩

theorem Renames.of_node (inner : tree.isLeaf = false) (head : built.head = tree.head)
    (parts : List.Forall₂ (Renames name subtree) tree.children built.children) :
    Renames name subtree tree built := by
  have builtInner : built.isLeaf = false := by rwa [Expr.isLeaf, head]
  constructor
  · intro variableName occurs
    obtain ⟨child, member, deeper⟩ := (mem_occurrences_node inner).mp occurs
    obtain ⟨index, inBounds, rfl⟩ := List.getElem_of_mem member
    have partInBounds : index < built.children.length := parts.length_eq ▸ inBounds
    rcases (parts.get inBounds partInBounds).kept variableName deeper with partOccurs | hoisted
    · exact .inl ((mem_occurrences_node builtInner).mpr ⟨_, List.getElem_mem _, partOccurs⟩)
    · exact .inr hoisted
  · intro variableName occurs
    obtain ⟨part, member, deeper⟩ := (mem_occurrences_node builtInner).mp occurs
    obtain ⟨index, inBounds, rfl⟩ := List.getElem_of_mem member
    have childInBounds : index < tree.children.length := parts.length_eq ▸ inBounds
    rcases (parts.get childInBounds inBounds).old variableName deeper with childOccurs | new
    · exact .inl ((mem_occurrences_node inner).mpr ⟨_, List.getElem_mem _, childOccurs⟩)
    · exact .inr new

theorem Renames.congr (renames : Renames name subtree tree built)
    (same : other.occurrences = tree.occurrences) : Renames name subtree other built :=
  ⟨fun variableName occurs => renames.kept variableName (same ▸ occurs),
    fun variableName occurs => same ▸ renames.old variableName occurs⟩

/-- What is built from an arena in which every place holds a wrapper with the variables of the
child. -/
theorem rebuilt_renames {laid arena : Arena} {shared index : Nat} (laidOut : laid.LaidOut)
    (keeps : laid.Keeps arena) (ok : arena.rebuilt shared (.var name mark) index = .ok built) :
    Renames name (laid.wrapper shared).node (laid.wrapper index).node built := by
  have descends := keeps.descends laidOut
  induction index using Nat.strongRecOn generalizing built with
  | ind index ih =>
      rw [Arena.rebuilt_eq descends, keeps.node] at ok
      by_cases here : index = shared
      · subst here
        rw [if_pos rfl] at ok
        cases ok
        exact .of_subtree rfl
      rw [if_neg here] at ok
      by_cases childless : (arena.wrapper index).children.isEmpty = true
      · rw [if_pos childless] at ok
        cases ok
        exact .of_eq rfl
      rw [if_neg childless] at ok
      cases all : allOk ((arena.wrapper index).children.map
          (arena.rebuilt shared (.var name mark))) with
      | error fault => simp [all, bind, Except.bind] at ok
      | ok parts =>
          rw [all] at ok
          have inner : (laid.wrapper index).node.isLeaf = false := by
            by_contra isLeaf
            have slots := laidOut.slots index
            rw [children_leaf (by simpa using isLeaf), List.map_eq_nil_iff] at slots
            have places := keeps.places index
            rw [slots, List.forall₂_nil_left_iff] at places
            exact childless (by rw [places, List.isEmpty_nil])
          rcases withParts_cases inner ok with ⟨rfl, _⟩ | ⟨head, children, _⟩
          · exact .of_eq rfl
          · apply Renames.of_node inner head
            have places := keeps.places index
            have oks := forall₂_of_allOk all
            rw [children, ← laidOut.slots, List.forall₂_map_left_iff, List.forall₂_iff_get]
            refine ⟨places.length_eq.trans oks.length_eq, fun slot inBounds partInBounds => ?_⟩
            have heldInBounds := places.length_eq ▸ inBounds
            have ⟨notAfter, same⟩ := places.get inBounds heldInBounds
            have before := laidOut.descends index _ (List.getElem_mem inBounds)
            exact (ih _ (Nat.lt_of_le_of_lt notAfter before)
              (oks.get heldInBounds partInBounds)).congr same.symm

/-- A step that succeeds leaves a tree as it is, or it puts a new variable in place of a
subtree. -/
theorem hoist_inversion {auxiliaries extended : Auxiliaries} {start : Nat}
    (value : (tree.hoist auxiliaries).value start = .ok (built, extended)) :
    let name := freshName tree.variableNames auxiliaries.names
    (built = tree ∧ extended = auxiliaries) ∨
      ∃ subtree ∈ tree.subtrees, Renames name subtree tree built ∧
        extended = auxiliaries.push name subtree := by
  intro name
  have laidOut := Arena.laidOut_layout tree
  rcases hoist_eq tree auxiliaries start with ⟨_, unchanged⟩ | ⟨shared, found, pushed, _⟩
  · rw [unchanged] at value
    cases value
    exact .inl ⟨rfl, rfl⟩
  · rw [pushed] at value
    cases rebuilds : (Arena.layout tree).mergeEqual.rebuilt shared (.var name (.made start))
        (Arena.root tree) with
    | error fault => simp [name, rebuilds, Except.map] at value
    | ok rebuilt =>
        have renames := rebuilt_renames laidOut (Arena.keeps_mergeEqual laidOut) rebuilds
        rw [Arena.node_root] at renames
        simp only [name, rebuilds, Except.map, Except.ok.injEq, Prod.mk.injEq] at value
        refine .inr ⟨_, ?_, value.1 ▸ renames, value.2.symm⟩
        have inside := Arena.lt_of_firstShared? laidOut found
        rw [← Arena.nodes_layout]
        exact List.mem_of_getElem? (Arena.getElem?_nodes inside)

/-! ## Runs -/

/-- How the auxiliary variables that a run adds are named. -/
structure NamesAdded (tree : Expr) (taken : List String) (added : List (String × Expr)) :
    Prop where
  distinct : (added.map Prod.fst).Nodup
  untaken : ∀ name ∈ added.map Prod.fst, name ∉ taken
  numbered : ∀ name ∈ added.map Prod.fst, ∃ number : Nat, name = "tmpvar" ++ toString number
  occurs_iff : ∀ before name definition after, added = before ++ (name, definition) :: after →
    (name ∈ tree.occurrences ↔ ∃ earlier ∈ before, name ∈ earlier.2.occurrences)

theorem namesAdded_nil (taken : List String) : NamesAdded tree taken [] where
  distinct := List.nodup_nil
  untaken := nofun
  numbered := nofun
  occurs_iff := by simp

/-- A step before a run. -/
theorem NamesAdded.cons {taken : List String} {added : List (String × Expr)}
    (fresh : name ∉ tree.occurrences ∧ name ∉ taken)
    (isNumbered : ∃ number : Nat, name = "tmpvar" ++ toString number)
    (below : subtree ∈ tree.subtrees) (renames : Renames name subtree tree built)
    (names : NamesAdded built (taken ++ [name]) added) :
    NamesAdded tree taken ((name, subtree) :: added) where
  distinct := by
    refine List.nodup_cons.mpr ⟨fun member => ?_, names.distinct⟩
    exact names.untaken name member (by simp)
  untaken := by
    refine List.forall_mem_cons.mpr ⟨fresh.2, fun later member isTaken => ?_⟩
    exact names.untaken later member (List.mem_append_left _ isTaken)
  numbered := List.forall_mem_cons.mpr ⟨isNumbered, names.numbered⟩
  occurs_iff := by
    intro before later definition after split
    cases before with
    | nil =>
        cases split
        simp [fresh.1]
    | cons first before =>
        obtain ⟨rfl, rest⟩ := List.cons.inj split
        have inNext := names.occurs_iff before later definition after rest
        have different : later ≠ name := by
          rintro rfl
          exact names.untaken later (by simp [rest]) (by simp)
        rw [List.exists_mem_cons_iff, ← inNext]
        -- What the step took out of the tree is in its definition, all else is still there.
        constructor
        · intro occurs
          exact (renames.kept later occurs).symm
        · rintro (hoisted | occurs)
          · exact occurrences_subset_of_mem below hoisted
          · exact (renames.old later occurs).resolve_right different

/-- The names that a run of at most the given number of steps adds. -/
theorem flattenTo_names {steps start : Nat} {result : Expr} {auxiliaries extended : Auxiliaries}
    (value : (flattenTo steps tree auxiliaries).value start = .ok (result, extended)) :
    ∃ added, extended = auxiliaries.extend added ∧ NamesAdded tree auxiliaries.names added := by
  induction steps generalizing tree auxiliaries start with
  | zero =>
      cases value
      exact ⟨[], by simp [Auxiliaries.extend], namesAdded_nil _⟩
  | succ steps ih =>
      rw [flattenTo, Traced.value_bind] at value
      cases step : (tree.hoist auxiliaries).value start with
      | error fault => simp [step] at value
      | ok next =>
          obtain ⟨built, pushed⟩ := next
          simp only [step] at value
          rcases hoist_inversion step with ⟨rfl, rfl⟩ | ⟨subtree, below, renames, rfl⟩
          · rw [if_pos rfl] at value
            cases value
            exact ⟨[], by simp [Auxiliaries.extend], namesAdded_nil _⟩
          · rw [if_neg (by simp [Auxiliaries.push])] at value
            obtain ⟨added, rfl, names⟩ := ih value
            refine ⟨_, Auxiliaries.extend_push _ _ _ _, ?_⟩
            exact .cons (fresh_freshName tree auxiliaries.names) (freshName_spec _ _).1 below
              renames names

/-- The auxiliary variables of a run from none have different names, one for each
definition.  Such a name is a variable of the tree only where it occurs in an
earlier definition, and so never when no variable of the tree bears a numbered name. -/
theorem auxiliary_names_collide_only_with_hoisted_variables (tree result : Expr)
    (auxiliaries : Auxiliaries) (start : Nat)
    (value : (tree.flatten .empty).value start = .ok (result, auxiliaries)) :
    auxiliaries.names.Nodup ∧ auxiliaries.names.length = auxiliaries.definitions.length ∧
    (∀ before name definition after,
      auxiliaries.names.zip auxiliaries.definitions = before ++ (name, definition) :: after →
      (name ∈ tree.occurrences ↔ ∃ earlier ∈ before, name ∈ earlier.2.occurrences)) ∧
    ((∀ number : Nat, "tmpvar" ++ toString number ∉ tree.occurrences) →
      ∀ name ∈ auxiliaries.names, name ∉ tree.occurrences) := by
  obtain ⟨added, rfl, names⟩ := flattenTo_names value
  refine ⟨names.distinct, ?_, ?_, ?_⟩
  · simp [Auxiliaries.extend, Auxiliaries.empty]
  · rw [Auxiliaries.zip_extend_empty]
    exact names.occurs_iff
  · intro unnumbered name member
    obtain ⟨number, rfl⟩ := names.numbered name member
    exact unnumbered number

/-- Two sines of the sine of one variable, and two sines of another. -/
def repeatedSines (inner outer : String) : Expr :=
  let nested : Expr := .call .sin (.call .sin (.var inner))
  let plain : Expr := .call .sin (.var outer)
  unmarked (.array [nested, nested, plain, plain])

theorem auxiliary_names_differ_from_unnumbered_variables :
    ∃ result auxiliaries,
      ((repeatedSines "x" "y").flatten .empty).value 0 = .ok (result, auxiliaries) ∧
      auxiliaries.names = ["tmpvar0", "tmpvar1"] ∧
      ∀ name ∈ auxiliaries.names, name ∉ (repeatedSines "x" "y").occurrences := by
  have names : (((repeatedSines "x" "y").flatten .empty).value 0).toOption.map (·.2.names) =
      some ["tmpvar0", "tmpvar1"] := by decide +kernel
  cases value : ((repeatedSines "x" "y").flatten .empty).value 0 with
  | error fault => simp [value, Except.toOption] at names
  | ok pair =>
      obtain ⟨result, auxiliaries⟩ := pair
      refine ⟨result, auxiliaries, rfl, by simpa [value, Except.toOption] using names, ?_⟩
      apply (auxiliary_names_collide_only_with_hoisted_variables _ _ _ _ value).2.2.2
      intro number
      have occurring : (repeatedSines "x" "y").occurrences = ["x", "x", "y", "y"] := by
        decide +kernel
      rw [occurring]
      simp [String.ext_iff]

/-- A variable that was hoisted before is not seen: its name is chosen again. -/
theorem hidden_variable_is_named_again :
    ∃ result auxiliaries,
      ((repeatedSines "tmpvar1" "y").flatten .empty).value 0 = .ok (result, auxiliaries) ∧
      "tmpvar1" ∈ auxiliaries.names ∧ "tmpvar1" ∈ (repeatedSines "tmpvar1" "y").occurrences := by
  have names : (((repeatedSines "tmpvar1" "y").flatten .empty).value 0).toOption.map (·.2.names) =
      some ["tmpvar0", "tmpvar1"] := by decide +kernel
  cases value : ((repeatedSines "tmpvar1" "y").flatten .empty).value 0 with
  | error fault => simp [value, Except.toOption] at names
  | ok pair =>
      obtain ⟨result, auxiliaries⟩ := pair
      refine ⟨result, auxiliaries, rfl, ?_, by decide +kernel⟩
      have chosen : auxiliaries.names = ["tmpvar0", "tmpvar1"] := by
        simpa [value, Except.toOption] using names
      simp [chosen]

end Expr

end SymbolicAlgebra
