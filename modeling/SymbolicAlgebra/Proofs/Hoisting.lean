import Mathlib.Data.List.Find
import Mathlib.Data.List.Forall2
import Mathlib.Data.List.Nodup
import Mathlib.Data.List.Perm.Subperm
import SymbolicAlgebra.Proofs.Substitution
import SymbolicAlgebra.Sharing.Hoisting

/-!
# One step of hoisting

A new variable takes the places of a repeated subtree, and the nodes around them are
built anew over their changed children.  This succeeds on every tree that checked
construction accepts, and substituting the subtree for the variable restores the tree.
Nodes that are kept as they are do not mention the variable, for its name is new; so no
assumption on marks is needed.
-/

namespace SymbolicAlgebra

namespace Expr

variable {tree other node built : Expr} {parts : List Expr} {name : String}

theorem asVar?_node (inner : tree.isLeaf = false) : tree.asVar? = none := by
  cases tree <;> first | rfl | cases inner

theorem asNumber?_node (inner : tree.isLeaf = false) : tree.asNumber? = none := by
  cases tree <;> first | rfl | cases inner

/-- Checked construction accepts every node of the tree over its children. -/
def Accepted (tree : Expr) : Prop :=
  ∀ node ∈ tree.subtrees, ∃ built, node.withChildren node.children = .ok built

instance : Decidable tree.Accepted :=
  decidable_of_iff (∀ node ∈ tree.subtrees, (node.withChildren node.children).isOk = true) <|
    forall₂_congr fun node _ => by
      cases node.withChildren node.children <;> simp [Except.isOk, Except.toBool]

/-- Checked construction sees no more of an inner node than its head. -/
theorem withChildren_congr (inner : node.isLeaf = false) (same : node.head = other.head) :
    node.withChildren parts = other.withChildren parts := by
  have otherInner : other.isLeaf = false := by rwa [Expr.isLeaf, ← same]
  rw [withChildren, withChildren, same]
  cases head : other.head with
  | leaf => simp [Expr.isLeaf, head] at otherInner
  | _ => rfl

theorem head_children_of_withChildren (inner : node.isLeaf = false)
    (ok : node.withChildren parts = .ok built) :
    built.head = node.head ∧ built.children = parts := by
  rw [withChildren] at ok
  cases head : node.head with
  | leaf => simp [Expr.isLeaf, head] at inner
  | array =>
      rw [head] at ok
      cases ok
      exact ⟨rfl, rfl⟩
  | operator op =>
      simp only [head, ofOperator] at ok
      split at ok <;> first | (cases ok; exact ⟨rfl, rfl⟩) | cases ok
  | function function =>
      simp only [head, ofFunction] at ok
      split at ok <;> first | (cases ok; exact ⟨rfl, rfl⟩) | cases ok
  | construct construct =>
      simp only [head, ofConstruct] at ok
      split at ok <;> (try split at ok) <;> first | (cases ok; exact ⟨rfl, rfl⟩) | cases ok

/-- Other children are accepted if they are variables where the old ones were. -/
theorem exists_withChildren
    (accepted : node.withChildren node.children = .ok built)
    (kept : List.Forall₂ (fun child part => child.asVar?.isSome → part.asVar?.isSome)
      node.children parts) :
    ∃ rebuilt, node.withChildren parts = .ok rebuilt := by
  have arity := kept.length_eq
  cases node with
  | array items mark => exact ⟨_, rfl⟩
  | summation body index first last mark =>
      rcases kept with _ | ⟨_, _ | ⟨remains, _ | ⟨_, _ | ⟨_, _ | _⟩⟩⟩⟩
      have isVariable : index.asVar?.isSome = true := by
        by_contra notVariable
        simp [withChildren, head, children, ofConstruct, notVariable] at accepted
      exact ⟨_, if_pos (remains isVariable)⟩
  | assignment target value mark =>
      rcases kept with _ | ⟨remains, _ | ⟨_, _ | _⟩⟩
      have isVariable : target.asVar?.isSome = true := by
        by_contra notVariable
        simp [withChildren, head, children, ofConstruct, notVariable] at accepted
      exact ⟨_, if_pos (remains isVariable)⟩
  | _ =>
    rcases parts with _ | ⟨_, _ | ⟨_, _ | ⟨_, _ | ⟨_, _ | ⟨_, _⟩⟩⟩⟩⟩ <;>
      first | exact ⟨_, rfl⟩ | simp [children] at arity

/-! ## New names -/

theorem mem_distinct {names : List String} : name ∈ distinct names ↔ name ∈ names := by
  induction names with
  | nil => rfl
  | cons first names ih =>
      rw [distinct, List.mem_cons, List.mem_cons, List.mem_filter, ih]
      by_cases same : name = first <;> simp [same]

theorem numbered_injective :
    Function.Injective fun number : Nat => "tmpvar" ++ toString number := by
  intro first second same
  have digits : Nat.toDigits 10 first = Nat.toDigits 10 second := by
    simpa [String.ext_iff, Nat.repr] using same
  rw [← Nat.ofDigitChars_ten_toDigits (n := first), digits, Nat.ofDigitChars_ten_toDigits]

/-- One of the numbered names is new, for there are more of them than names that
are in use. -/
theorem freshName_spec (used taken : List String) :
    (∃ number : Nat, freshName used taken = "tmpvar" ++ toString number) ∧
      freshName used taken ∉ used ++ taken := by
  let numbered := fun offset => "tmpvar" ++ toString (taken.length + offset)
  let candidates := (List.range (used.length + taken.length + 1)).map numbered
  have distinctNames : candidates.Nodup := by
    refine List.Nodup.map (fun first second same => ?_) List.nodup_range
    have := numbered_injective same
    omega
  have notAll : ¬candidates ⊆ used ++ taken := by
    intro included
    have bound := (distinctNames.subperm included).length_le
    simp only [candidates, List.length_map, List.length_range, List.length_append] at bound
    omega
  obtain ⟨candidate, member, free⟩ : ∃ candidate ∈ candidates, candidate ∉ used ++ taken := by
    simpa [List.subset_def] using notAll
  have isFree (name : String) :
      (!used.contains name && !taken.contains name) = true ↔ name ∉ used ++ taken := by
    simp
  have found : (candidates.find? fun name => !used.contains name && !taken.contains name).isSome :=
    List.find?_isSome.mpr ⟨candidate, member, (isFree candidate).mpr free⟩
  obtain ⟨name, first⟩ := Option.isSome_iff_exists.mp found
  have chosen : freshName used taken = name := by
    change (candidates.find? _).getD _ = name
    rw [first, Option.getD_some]
  rw [chosen]
  constructor
  · obtain ⟨offset, _, rfl⟩ := List.mem_map.mp (List.mem_of_find?_eq_some first)
    exact ⟨taken.length + offset, rfl⟩
  · have passes := List.find?_some first
    exact (isFree name).mp passes

/-! ## One step -/

/-- The results of some computations that may fail, from left to right. -/
def allOk : List (Except NodeError Expr) → Except NodeError (List Expr)
  | [] => .ok []
  | result :: results => do return (← result) :: (← allOk results)

/-- The tree with a replacement in place of a subtree, and with the first of some
nodes in place of all nodes equal to it. -/
def introduce (subtree replacement : Expr) : Expr → List Expr → Except NodeError Expr :=
  fold (fun leaf nodes => .ok ((nodes.find? (· == leaf)).getD leaf))
    fun node parts nodes =>
      if node == subtree then .ok replacement
      else do
        let parts ← allOk (parts.map fun part => part nodes)
        ((nodes.find? (· == node)).getD node).withParts replacement parts

section Introduce

variable {root subtree replacement : Expr}

/-- The first of some nodes that equals a tree, and the tree when there is none. -/
def firstEqual (nodes : List Expr) (tree : Expr) : Expr := (nodes.find? (· == tree)).getD tree

theorem introduce_leaf {nodes : List Expr} (isLeaf : tree.isLeaf = true) :
    introduce subtree replacement tree nodes = .ok (firstEqual nodes tree) :=
  congrFun (fold_leaf isLeaf) nodes

theorem introduce_node {nodes : List Expr} (inner : tree.isLeaf = false) :
    introduce subtree replacement tree nodes =
      if tree == subtree then .ok replacement
      else (do
        let parts ← allOk (tree.children.map (introduce subtree replacement · nodes))
        (firstEqual nodes tree).withParts replacement parts) := by
  refine (congrFun (fold_node inner) nodes).trans ?_
  simp only [List.map_map]
  rfl

theorem allOk_of_forall {Item : Type} {compute : Item → Except NodeError Expr}
    {relation : Item → Expr → Prop} {items : List Item}
    (each : ∀ item ∈ items, ∃ result, compute item = .ok result ∧ relation item result) :
    ∃ results, allOk (items.map compute) = .ok results ∧ List.Forall₂ relation items results := by
  induction items with
  | nil => exact ⟨[], rfl, .nil⟩
  | cons item items ih =>
      obtain ⟨result, ok, related⟩ := each item List.mem_cons_self
      obtain ⟨results, allOks, allRelated⟩ := ih fun item member =>
        each item (List.mem_cons_of_mem _ member)
      refine ⟨result :: results, ?_, .cons related allRelated⟩
      rw [List.map_cons, allOk, ok, allOks]
      rfl

theorem IsExact.of_mem_subtrees (exact : root.IsExact) (below : tree ∈ root.subtrees) :
    tree.IsExact :=
  fun leaf deeper => exact leaf (subtrees_subset_of_mem below deeper)

theorem beq_iff_of_mem (exact : root.IsExact) (below : tree ∈ root.subtrees) :
    (tree == other) = true ↔ tree.unmarked = other.unmarked :=
  agree_iff_unmarked_eq (exact.of_mem_subtrees below)

theorem firstEqual_mem (exact : root.IsExact) (below : tree ∈ root.subtrees) :
    firstEqual root.subtrees tree ∈ root.subtrees ∧
      (firstEqual root.subtrees tree).unmarked = tree.unmarked := by
  rw [firstEqual]
  cases found : root.subtrees.find? (· == tree) with
  | none => exact ⟨below, rfl⟩
  | some first =>
      have member := List.mem_of_find?_eq_some found
      have equal := List.find?_some found
      exact ⟨member, (beq_iff_of_mem exact member).mp equal⟩

/-- Equal trees have the same first node. -/
theorem firstEqual_congr (exact : root.IsExact) (below : tree ∈ root.subtrees)
    (same : tree.unmarked = other.unmarked) :
    firstEqual root.subtrees tree = firstEqual root.subtrees other := by
  have predicates : root.subtrees.find? (· == tree) = root.subtrees.find? (· == other) := by
    refine List.find?_congr fun first member => ?_
    rw [Bool.eq_iff_iff, beq_iff_of_mem exact member, beq_iff_of_mem exact member, same]
  have found : (root.subtrees.find? (· == tree)).isSome :=
    List.find?_isSome.mpr ⟨tree, below, (beq_iff_of_mem exact below).mpr rfl⟩
  obtain ⟨first, equal⟩ := Option.isSome_iff_exists.mp found
  rw [firstEqual, firstEqual, ← predicates, equal, Option.getD_some, Option.getD_some]

/-- Equal trees become the same tree. -/
theorem introduce_congr (exact : root.IsExact) (below : tree ∈ root.subtrees)
    (otherBelow : other ∈ root.subtrees) (same : tree.unmarked = other.unmarked) :
    introduce subtree replacement tree root.subtrees =
      introduce subtree replacement other root.subtrees := by
  induction tree using induction_children generalizing other with
  | leaf tree isLeaf =>
      have otherLeaf : other.isLeaf = true := by rwa [← isLeaf_unmarked, ← same, isLeaf_unmarked]
      rw [introduce_leaf isLeaf, introduce_leaf otherLeaf, firstEqual_congr exact below same]
  | node tree inner ih =>
      have otherInner : other.isLeaf = false := by rwa [← isLeaf_unmarked, ← same, isLeaf_unmarked]
      have equal : (tree == subtree) = (other == subtree) := by
        rw [Bool.eq_iff_iff, beq_iff_of_mem exact below, beq_iff_of_mem exact otherBelow, same]
      have children : tree.children.map (introduce subtree replacement · root.subtrees) =
          other.children.map (introduce subtree replacement · root.subtrees) := by
        have unmarkedChildren := ((unmarked_eq_iff inner).mp same).2
        have length : tree.children.length = other.children.length := by
          simpa using congrArg List.length unmarkedChildren
        apply List.ext_getElem (by simpa using length)
        intro index inBounds otherInBounds
        rw [List.length_map] at inBounds otherInBounds
        have mem := List.getElem_mem inBounds
        have otherMem := List.getElem_mem otherInBounds
        simp only [List.getElem_map]
        apply ih _ mem (subtrees_subset_of_mem below (mem_subtrees_of_mem_children mem))
          (subtrees_subset_of_mem otherBelow (mem_subtrees_of_mem_children otherMem))
        simpa [inBounds, otherInBounds] using congrArg (·[index]?) unmarkedChildren
      rw [introduce_node inner, introduce_node otherInner, equal, children,
        firstEqual_congr exact below same]

/-- What became of a tree when a variable took the place of its repeated
subtree: inlining restores it, and the step can be repeated. -/
structure Hoisted (name : String) (subtree tree built : Expr) : Prop where
  restores : built.plugged name subtree = tree.unmarked
  accepted : built.Accepted
  isExact : built.IsExact
  isVariable : tree.asVar?.isSome → built.asVar?.isSome

/-- A node of the tree itself, which does not mention the new variable. -/
theorem Hoisted.of_mem (exact : root.IsExact) (accepted : root.Accepted)
    (fresh : name ∉ root.occurrences) (below : built ∈ root.subtrees)
    (same : built.unmarked = tree.unmarked) : Hoisted name subtree tree built where
  restores := by
    rw [plugged_of_not_mem fun occurs => fresh (occurrences_subset_of_mem below occurs), same]
  accepted := fun node deeper => accepted node (subtrees_subset_of_mem below deeper)
  isExact := exact.of_mem_subtrees below
  isVariable := by
    have view : tree.asVar? = built.asVar? := by
      rw [← asVar?_unmarked, ← same, asVar?_unmarked]
    rw [view]
    exact id

/-- The variable in place of the subtree. -/
theorem Hoisted.of_variable (isVariable : replacement.asVar? = some name)
    (same : tree.unmarked = subtree.unmarked) :
    Hoisted name subtree tree replacement := by
  cases replacement with
  | var variableName mark =>
      cases isVariable
      refine ⟨?_, ?_, ?_, ?_⟩
      · rw [plugged_leaf rfl, same]
        exact if_pos rfl
      · intro node below
        cases List.mem_singleton.mp below
        exact ⟨_, rfl⟩
      · intro node below number found
        cases List.mem_singleton.mp below
        cases found
      · exact fun _ => rfl
  | _ => cases isVariable

/-- A node over new children. -/
theorem Hoisted.of_node {rebuilt : Expr} (inner : tree.isLeaf = false)
    (head : built.head = tree.head) (accepts : built.withChildren built.children = .ok rebuilt)
    (parts : List.Forall₂ (Hoisted name subtree) tree.children built.children) :
    Hoisted name subtree tree built := by
  have builtInner : built.isLeaf = false := by rwa [Expr.isLeaf, head]
  have origin (part : Expr) (member : part ∈ built.children) :
      ∃ child, Hoisted name subtree child part := by
    obtain ⟨index, inBounds, rfl⟩ := List.getElem_of_mem member
    exact ⟨_, parts.get (by rwa [parts.length_eq]) inBounds⟩
  refine ⟨?_, ?_, ?_, ?_⟩
  · apply plugged_eq_unmarked builtInner head
    rw [← List.forall₂_eq_eq_eq, List.forall₂_map_left_iff, List.forall₂_map_right_iff]
    exact (parts.imp fun child part hoisted => hoisted.restores).flip
  · intro node below
    rcases mem_subtrees_iff.mp below with rfl | ⟨part, member, deeper⟩
    · exact ⟨rebuilt, accepts⟩
    · obtain ⟨child, hoisted⟩ := origin part member
      exact hoisted.accepted node deeper
  · intro leaf below number found
    rcases mem_subtrees_iff.mp below with rfl | ⟨part, member, deeper⟩
    · rw [asNumber?_node builtInner] at found
      cases found
    · obtain ⟨child, hoisted⟩ := origin part member
      exact hoisted.isExact leaf deeper number found
  · simp [asVar?_node inner]

/-- Either the new children are those of the node, which is kept, or it is made
anew over them. -/
theorem withParts_cases (inner : node.isLeaf = false)
    (ok : node.withParts replacement parts = .ok built) :
    (built = node ∧ ∀ pair ∈ parts.zip node.children, pair.1.isSameNode pair.2 = true) ∨
      (built.head = node.head ∧ built.children = parts ∧
        built.givenMark = node.mark.renewed replacement.mark ∧
        ∃ rebuilt, built.withChildren built.children = .ok rebuilt) := by
  rw [withParts] at ok
  split at ok
  · next same =>
      cases ok
      exact .inl ⟨rfl, by simpa using same⟩
  · right
    cases made : node.withChildren parts with
    | error fault => simp [made, bind, Except.bind] at ok
    | ok rebuilt =>
        rw [made] at ok
        cases ok
        have ⟨head, children⟩ := head_children_of_withChildren inner made
        refine ⟨?_, ?_, givenMark_withMark _, rebuilt, ?_⟩
        · rw [head_withMark, head]
        · rw [children_withMark, children]
        · rw [children_withMark, children, ← made]
          apply withChildren_congr
          · rwa [isLeaf_withMark, Expr.isLeaf, head]
          · rw [head_withMark, head]

theorem exists_withParts {rebuilt : Expr} (made : node.withChildren parts = .ok rebuilt) :
    ∃ built, node.withParts replacement parts = .ok built := by
  rw [withParts, made]
  split <;> exact ⟨_, rfl⟩

/-- The step succeeds, and inlining its variable undoes it. -/
theorem introduce_hoisted (exact : root.IsExact) (accepted : root.Accepted)
    (fresh : name ∉ root.occurrences) (isVariable : replacement.asVar? = some name)
    (below : tree ∈ root.subtrees) :
    ∃ built, introduce subtree replacement tree root.subtrees = .ok built ∧
      Hoisted name subtree tree built := by
  induction tree using induction_children with
  | leaf tree isLeaf =>
      have ⟨member, same⟩ := firstEqual_mem exact below
      exact ⟨_, introduce_leaf isLeaf, .of_mem exact accepted fresh member same⟩
  | node tree inner ih =>
      by_cases equal : (tree == subtree) = true
      · refine ⟨replacement, ?_, .of_variable isVariable ?_⟩
        · rw [introduce_node inner, if_pos equal]
        · exact (beq_iff_of_mem exact below).mp equal
      · have ⟨member, same⟩ := firstEqual_mem exact below
        obtain ⟨parts, oks, hoisted⟩ := allOk_of_forall fun child mem =>
          ih child mem (subtrees_subset_of_mem below (mem_subtrees_of_mem_children mem))
        have head : (firstEqual root.subtrees tree).head = tree.head := by
          rw [← head_unmarked, same, head_unmarked]
        have firstInner : (firstEqual root.subtrees tree).isLeaf = false := by
          rwa [Expr.isLeaf, head]
        obtain ⟨_, accepts⟩ := accepted tree below
        obtain ⟨rebuilt, made⟩ :=
          exists_withChildren accepts (hoisted.imp fun _ _ => (·.isVariable))
        rw [← withChildren_congr firstInner head] at made
        obtain ⟨built, ok⟩ := exists_withParts made
        refine ⟨built, ?_, ?_⟩
        · rw [introduce_node inner, if_neg equal, oks]
          exact ok
        · rcases withParts_cases firstInner ok with ⟨rfl, _⟩ | ⟨sameHead, children, _, _, again⟩
          · exact .of_mem exact accepted fresh member same
          · exact .of_node inner (sameHead.trans head) again (children ▸ hoisted)

end Introduce

end Expr

end SymbolicAlgebra
