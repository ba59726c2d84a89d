import SymbolicAlgebra.Proofs.Arena.Refinement
import SymbolicAlgebra.Proofs.Replacement

/-!
# Inlining undoes hoisting

Steps of hoisting can be repeated until nothing repeats, and putting the
definitions of all auxiliary variables back, the latest first, restores the tree.

The steps come to an end because each of them removes inner nodes.  Here marks
matter: a node may be kept only if its children are the very same nodes, and a
mark must therefore stand for one tree.  This is so at the beginning, for
instance of a tree without marks, and every step keeps it so, since the nodes
that are made anew bear new marks.
-/

namespace SymbolicAlgebra

namespace Expr

variable {tree other node built root subtree replacement : Expr} {parts : List Expr} {start : Nat}

/-- All marks are below a number, and nodes with one mark are one tree. -/
structure WellMarked (start : Nat) (tree : Expr) : Prop where
  below : ∀ node ∈ tree.subtrees, node.mark.Below start
  single : ∀ node ∈ tree.subtrees, ∀ other ∈ tree.subtrees,
    node.isSameNode other = true → node.unmarked = other.unmarked

theorem mark_unmarked (tree : Expr) : tree.unmarked.mark = .unset ∨
    ∃ value, tree.unmarked.mark = .integer value ∧ tree.unmarked = .number (.int value) .unset := by
  rw [Expr.mark, givenMark_unmarked]
  cases shared : tree.unmarked.asInt?.filter fun value => (sharedInteger? value).isSome with
  | none => exact .inl rfl
  | some value =>
      obtain ⟨found, _⟩ := Option.filter_eq_some_iff.mp shared
      have unset : tree.unmarked.givenMark = .unset := givenMark_unmarked
      refine .inr ⟨value, rfl, ?_⟩
      cases whole : tree.unmarked with
      | number number mark =>
          rw [whole] at found unset
          cases number <;> cases found
          rw [← unset]
          rfl
      | _ => simp [whole, asInt?] at found

/-- A tree without marks is well marked: only small integers have a mark, which
tells their value. -/
theorem wellMarked_unmarked (start : Nat) : tree.unmarked.WellMarked start := by
  have unmarkedBelow (node : Expr) (below : node ∈ tree.unmarked.subtrees) :
      ∃ original : Expr, node = original.unmarked := by
    rw [subtrees_unmarked] at below
    obtain ⟨original, _, rfl⟩ := List.mem_map.mp below
    exact ⟨original, rfl⟩
  constructor
  · intro node below
    obtain ⟨original, rfl⟩ := unmarkedBelow node below
    rcases mark_unmarked original with mark | ⟨value, mark, _⟩ <;> rw [mark] <;> trivial
  · intro node below other otherBelow same
    have ⟨isSet, marks⟩ := isSameNode_iff.mp same
    obtain ⟨original, rfl⟩ := unmarkedBelow node below
    obtain ⟨otherOriginal, rfl⟩ := unmarkedBelow other otherBelow
    rcases mark_unmarked original with mark | ⟨value, mark, whole⟩
    · exact absurd mark isSet
    · rcases mark_unmarked otherOriginal with otherMark | ⟨_, otherMark, otherWhole⟩
      · exact absurd (marks.trans otherMark) isSet
      · rw [mark, otherMark] at marks
        cases marks
        rw [whole, otherWhole]

/-- Where a node of the next tree comes from: it is a node of the tree, it is the
new variable, or it was made anew from a node of the tree. -/
def HasOrigin (root subtree replacement node : Expr) : Prop :=
  node ∈ root.subtrees ∨ node = replacement ∨
    ∃ first ∈ root.subtrees, introduce subtree replacement first root.subtrees = .ok node ∧
      node.mark = first.mark.renewed replacement.mark

/-- Where the nodes of the next tree come from. -/
theorem introduce_hasOrigin (exact : root.IsExact) (below : tree ∈ root.subtrees)
    (isLeaf : replacement.isLeaf = true)
    (ok : introduce subtree replacement tree root.subtrees = .ok built) :
    ∀ node ∈ built.subtrees, HasOrigin root subtree replacement node := by
  induction tree using induction_children generalizing built with
  | leaf tree treeLeaf =>
      rw [introduce_leaf treeLeaf] at ok
      cases ok
      exact fun node deeper => .inl (subtrees_subset_of_mem (firstEqual_mem exact below).1 deeper)
  | node tree inner ih =>
      by_cases equal : (tree == subtree) = true
      · rw [introduce_node inner, if_pos equal] at ok
        cases ok
        intro node deeper
        rw [mem_subtrees_iff, children_leaf isLeaf] at deeper
        exact .inr (.inl (by simpa using deeper))
      · obtain ⟨parts, oks, made⟩ := introduce_node_cases inner equal ok
        have ⟨member, same⟩ := firstEqual_mem exact below
        have firstInner : (firstEqual root.subtrees tree).isLeaf = false := by
          rwa [← isLeaf_unmarked, same, isLeaf_unmarked]
        rcases withParts_cases firstInner made with ⟨rfl, _⟩ | ⟨head, children, mark, _⟩
        · exact fun node deeper => .inl (subtrees_subset_of_mem member deeper)
        · intro node deeper
          rcases mem_subtrees_iff.mp deeper with rfl | ⟨part, mem, deeper⟩
          · refine .inr (.inr ⟨_, member, ?_, ?_⟩)
            · rw [introduce_congr exact member below same, ok]
            · rw [mark_node (by rwa [Expr.isLeaf, head]), mark]
          · rw [children] at mem
            obtain ⟨index, inBounds, rfl⟩ := List.getElem_of_mem mem
            have childInBounds : index < tree.children.length := by rwa [oks.length_eq]
            have childMem := List.getElem_mem childInBounds
            exact ih _ childMem
              (subtrees_subset_of_mem below (mem_subtrees_of_mem_children childMem))
              (oks.get childInBounds inBounds) node deeper

/-- The marks of the next tree are old ones, the new one or made from the two. -/
theorem markedBelow_of_hasOrigin (marked : root.MarkedBelow start)
    (new : replacement.mark = .made start)
    (origins : ∀ node ∈ built.subtrees, HasOrigin root subtree replacement node) :
    built.MarkedBelow (start + 1) := by
  intro node below
  rcases origins node below with member | rfl | ⟨first, member, _, mark⟩
  · exact (marked node member).succ
  · rw [new]
    exact Nat.lt_succ_self start
  · rw [mark, new]
    exact (marked first member).renewed

section Fresh

variable (marked : root.WellMarked start) (new : replacement.mark = .made start)
include marked new

/-- The mark of a node of the next tree tells where it comes from. -/
theorem HasOrigin.mark_cases (origin : HasOrigin root subtree replacement node)
    (isSet : node.mark ≠ .unset) :
    (node ∈ root.subtrees ∧ node.mark.Below start) ∨
      (node = replacement ∧ node.mark = .made start) ∨
      ∃ first ∈ root.subtrees, introduce subtree replacement first root.subtrees = .ok node ∧
        first.mark ≠ .unset ∧ node.mark = .remade (.made start) first.mark := by
  rcases origin with member | rfl | ⟨first, member, ok, mark⟩
  · exact .inl ⟨member, marked.below node member⟩
  · exact .inr (.inl ⟨rfl, new⟩)
  · rw [new] at mark
    rcases Mark.renewed_cases start with unset | ⟨firstSet, remade⟩
    · exact absurd (mark.trans unset) isSet
    · exact .inr (.inr ⟨first, member, ok, firstSet, mark.trans remade⟩)

/-- A node of the next tree that bears the mark of a node of the tree equals it. -/
theorem HasOrigin.unmarked_eq (origin : HasOrigin root subtree replacement node)
    (below : other ∈ root.subtrees) (same : node.isSameNode other = true) :
    node.unmarked = other.unmarked := by
  have ⟨isSet, marks⟩ := isSameNode_iff.mp same
  have old : node.mark.Below start := marks ▸ marked.below other below
  rcases origin.mark_cases marked new isSet with
    ⟨member, _⟩ | ⟨_, mark⟩ | ⟨first, _, _, _, mark⟩
  · exact marked.single node member other below same
  · exact absurd (mark ▸ old) (Mark.not_below_made start)
  · exact absurd (mark ▸ old) (Mark.not_below_remade start _)

/-- The next tree is well marked. -/
theorem wellMarked_of_hasOrigin (exact : root.IsExact)
    (origins : ∀ node ∈ built.subtrees, HasOrigin root subtree replacement node) :
    built.WellMarked (start + 1) := by
  constructor
  · exact markedBelow_of_hasOrigin marked.below new origins
  · intro node below other otherBelow same
    have ⟨isSet, marks⟩ := isSameNode_iff.mp same
    have swapped : other.isSameNode node = true := isSameNode_iff.mpr ⟨marks ▸ isSet, marks.symm⟩
    have otherSet : other.mark ≠ .unset := marks ▸ isSet
    rcases (origins other otherBelow).mark_cases marked new otherSet with
      ⟨member, _⟩ | ⟨replaced, mark⟩ | ⟨first, member, ok, _, mark⟩
    · exact (origins node below).unmarked_eq marked new member same
    all_goals
      rcases (origins node below).mark_cases marked new isSet with
        ⟨nodeMember, _⟩ | ⟨nodeReplaced, nodeMark⟩ |
          ⟨nodeFirst, nodeMember, nodeOk, firstSet, nodeMark⟩
      · exact ((origins other otherBelow).unmarked_eq marked new nodeMember swapped).symm
      all_goals rw [mark, nodeMark] at marks
    · rw [replaced, nodeReplaced]
    · cases marks
    · cases marks
    · -- Both were made anew, from nodes with one mark.
      have firstMarks : nodeFirst.mark = first.mark := by injection marks
      have firsts := marked.single nodeFirst nodeMember first member
        (isSameNode_iff.mpr ⟨firstSet, firstMarks⟩)
      rw [introduce_congr exact nodeMember member firsts, ok] at nodeOk
      cases nodeOk
      rfl

end Fresh

/-! ## Steps and runs -/

variable {name : String}

theorem fresh_freshName (tree : Expr) (taken : List String) :
    freshName tree.variableNames taken ∉ tree.occurrences ∧
      freshName tree.variableNames taken ∉ taken := by
  have fresh := (freshName_spec tree.variableNames taken).2
  rw [List.mem_append, not_or] at fresh
  exact ⟨fun occurs => fresh.1 (mem_distinct.mpr occurs), fresh.2⟩

/-- A step put a new variable in place of a repeated subtree of greatest height, and
inlining the variable undoes it. -/
structure Hoists (tree : Expr) (auxiliaries : Auxiliaries) (start : Nat) (name : String)
    (subtree built : Expr) : Prop where
  repeats : subtree ∈ tree.repeated
  highest : ∀ other ∈ tree.repeated, other.height ≤ subtree.height
  fresh : name ∉ tree.occurrences
  introduced : introduce subtree (.var name (.made start)) tree tree.subtrees = .ok built
  value : (tree.hoist auxiliaries).value start = .ok (built, auxiliaries.push name subtree)
  marks : (tree.hoist auxiliaries).marks start = start + 1
  hoisted : Hoisted name subtree tree built

/-- What one step does: nothing when nothing repeats, and else it adds one
auxiliary variable. -/
theorem hoist_cases (exact : tree.IsExact) (accepted : tree.Accepted)
    (auxiliaries : Auxiliaries) (start : Nat) :
    (tree.repeated = [] ∧ (tree.hoist auxiliaries).value start = .ok (tree, auxiliaries)) ∨
      ∃ name subtree built, Hoists tree auxiliaries start name subtree built := by
  rcases hoist_of_exact exact auxiliaries start with
    ⟨nothing, unchanged⟩ | ⟨subtree, repeats, highest, value, marks, _⟩
  · refine .inl ⟨nothing, ?_⟩
    rw [unchanged]
    rfl
  · set name := freshName tree.variableNames auxiliaries.names with chosen
    have fresh : name ∉ tree.occurrences := chosen ▸ (fresh_freshName tree auxiliaries.names).1
    obtain ⟨built, ok, hoisted⟩ : ∃ built,
        introduce subtree (.var name (.made start)) tree tree.subtrees = .ok built ∧
          Hoisted name subtree tree built :=
      introduce_hoisted exact accepted fresh rfl mem_subtrees_self
    rw [ok] at value
    exact .inr ⟨name, subtree, built, repeats, highest, fresh, ok, value, marks, hoisted⟩

/-- The next tree is well marked and has fewer inner nodes. -/
theorem Hoists.next {auxiliaries : Auxiliaries} (exact : tree.IsExact)
    (hoists : Hoists tree auxiliaries start name subtree built) (marked : tree.WellMarked start) :
    built.WellMarked ((tree.hoist auxiliaries).marks start) ∧
      built.innerNodes < tree.innerNodes := by
  have ⟨below, inner, _⟩ := mem_repeated_iff_references.mp hoists.repeats
  have origins := introduce_hasOrigin exact mem_subtrees_self rfl hoists.introduced
  rw [hoists.marks]
  exact ⟨wellMarked_of_hasOrigin marked rfl exact origins,
    innerNodes_introduce_lt exact marked.below rfl rfl below inner hoists.introduced⟩

/-- The tree with definitions put back, the latest first, without marks. -/
def restored (tree : Expr) (added : List (String × Expr)) : Expr :=
  added.foldr (fun auxiliary result => result.plugged auxiliary.1 auxiliary.2) tree.unmarked

theorem restored_cons (auxiliary : String × Expr) (added : List (String × Expr)) :
    tree.restored (auxiliary :: added) = (tree.restored added).plugged auxiliary.1 auxiliary.2 :=
  rfl

theorem unmarked_run_inlineAuxiliaries (auxiliaries : Auxiliaries) (start : Nat) :
    ((tree.inlineAuxiliaries auxiliaries).run start).1.unmarked =
      tree.restored (auxiliaries.names.zip auxiliaries.definitions) := by
  rw [inlineAuxiliaries]
  induction auxiliaries.names.zip auxiliaries.definitions with
  | nil => rfl
  | cons auxiliary added ih =>
      rw [restored_cons, ← ih, plugged_unmarked]
      exact unmarked_run_substitute _

/-- Equal to a tree once the definitions are put back. -/
theorem inlineAuxiliaries_beq {result : Expr} {auxiliaries : Auxiliaries} (exact : tree.IsExact)
    (restores : result.restored (auxiliaries.names.zip auxiliaries.definitions) = tree.unmarked)
    (start : Nat) : (((result.inlineAuxiliaries auxiliaries).run start).1 == tree) = true := by
  have same := (unmarked_run_inlineAuxiliaries auxiliaries start).trans restores
  exact (agree_iff_unmarked_eq (exact.of_unmarked_eq same)).mpr same

end Expr

/-- More auxiliary variables. -/
def Auxiliaries.extend (auxiliaries : Auxiliaries) (added : List (String × Expr)) : Auxiliaries :=
  ⟨auxiliaries.names ++ added.map Prod.fst, auxiliaries.definitions ++ added.map Prod.snd⟩

theorem Auxiliaries.extend_push (auxiliaries : Auxiliaries) (name : String) (definition : Expr)
    (added : List (String × Expr)) :
    (auxiliaries.push name definition).extend added =
      auxiliaries.extend ((name, definition) :: added) := by
  simp [extend, push]

theorem Auxiliaries.zip_extend_empty (added : List (String × Expr)) :
    (Auxiliaries.empty.extend added).names.zip (Auxiliaries.empty.extend added).definitions =
      added := by
  simp [extend, empty, List.zip_map']

namespace Expr

variable {tree : Expr}

/-- A run of at most the given number of steps succeeds, inlining what it added
restores the tree, and as many steps as there are inner nodes are enough. -/
theorem flattenTo_restores (steps : Nat) (exact : tree.IsExact) (accepted : tree.Accepted)
    (auxiliaries : Auxiliaries) (start : Nat) :
    ∃ result added,
      (flattenTo steps tree auxiliaries).value start = .ok (result, auxiliaries.extend added) ∧
      result.restored added = tree.unmarked ∧
      (tree.WellMarked start → tree.innerNodes < steps → result.repeated = []) := by
  induction steps generalizing tree auxiliaries start with
  | zero =>
      refine ⟨tree, [], ?_, rfl, fun _ none => absurd none (Nat.not_lt_zero _)⟩
      simp [flattenTo, Auxiliaries.extend]
  | succ steps ih =>
      rw [flattenTo, Traced.value_bind]
      rcases hoist_cases exact accepted auxiliaries start with
        ⟨nothing, value⟩ | ⟨name, subtree, built, hoists⟩
      · refine ⟨tree, [], ?_, rfl, fun _ _ => nothing⟩
        simp [value, Auxiliaries.extend]
      · have hoisted := hoists.hoisted
        obtain ⟨result, added, run, restores, ends⟩ := ih hoisted.isExact hoisted.accepted
          (auxiliaries.push name subtree) ((tree.hoist auxiliaries).marks start)
        refine ⟨result, (name, subtree) :: added, ?_, ?_, ?_⟩
        · have more : (auxiliaries.push name subtree).names.length ≠ auxiliaries.names.length := by
            simp [Auxiliaries.push]
          simp only [hoists.value, if_neg more]
          rw [run, Auxiliaries.extend_push]
        · rw [restored_cons, restores, plugged_unmarked, hoisted.restores]
        · intro marked enough
          have ⟨nextMarked, fewer⟩ := hoists.next exact marked
          exact ends nextMarked (by omega)

/-- Hoisting is undone by inlining: on every tree that checked construction
accepts and that holds no doubles, a run of steps from no auxiliary variables
succeeds, adds as many names as definitions, and inlining them gives a tree equal
to the first one, and so does a single step.  A run ends only when nothing repeats,
and a step changes a tree when something does. -/
theorem inlining_restores_hoisted_tree (tree : Expr) (accepted : tree.Accepted)
    (exact : tree.IsExact) (start : Nat) :
    (∃ result auxiliaries, (tree.flatten .empty).value start = .ok (result, auxiliaries) ∧
      auxiliaries.names.length = auxiliaries.definitions.length ∧
      (∀ marks, (((result.inlineAuxiliaries auxiliaries).run marks).1 == tree) = true) ∧
      (tree.WellMarked start → result.repeated = [])) ∧
    (∃ result auxiliaries, (tree.hoist .empty).value start = .ok (result, auxiliaries) ∧
      auxiliaries.names.length = auxiliaries.definitions.length ∧
      (∀ marks, (((result.inlineAuxiliaries auxiliaries).run marks).1 == tree) = true) ∧
      (auxiliaries.names = [] ↔ tree.repeated = [])) := by
  constructor
  · obtain ⟨result, added, run, restores, ends⟩ :=
      flattenTo_restores (tree.size + 1) exact accepted .empty start
    refine ⟨result, _, run, ?_, inlineAuxiliaries_beq exact ?_, fun marked => ends marked ?_⟩
    · simp [Auxiliaries.extend, Auxiliaries.empty]
    · rw [Auxiliaries.zip_extend_empty, restores]
    · exact Nat.lt_succ_of_le innerNodes_le_size
  · rcases hoist_cases exact accepted .empty start with
      ⟨nothing, value⟩ | ⟨name, subtree, built, hoists⟩
    · refine ⟨tree, .empty, value, rfl, inlineAuxiliaries_beq exact rfl, ?_⟩
      simp [Auxiliaries.empty, nothing]
    · refine ⟨built, _, hoists.value, rfl, inlineAuxiliaries_beq exact ?_, ?_⟩
      · simpa [Auxiliaries.push, Auxiliaries.empty, restored, plugged_unmarked] using
          hoists.hoisted.restores
      · simp [Auxiliaries.push, Auxiliaries.empty, List.ne_nil_of_mem hoists.repeats]

/-- The sine of a product is added to itself and multiplied by the product, which
thus repeats within what repeats, and one variable bears a numbered name. -/
def nestedRepetition : Expr :=
  let product : Expr := .arith .mul (.var "x") (.var "tmpvar1")
  let sines : Expr := .arith .add (.call .sin product) (.call .sin product)
  unmarked (.assignment (.var "tmpvar0") (.arith .mul sines product))

theorem nestedRepetition_is_restored :
    nestedRepetition.Accepted ∧ nestedRepetition.IsExact ∧ nestedRepetition.repeated ≠ [] ∧
    ∃ result auxiliaries, (nestedRepetition.flatten .empty).value 0 = .ok (result, auxiliaries) ∧
      auxiliaries.names.length = auxiliaries.definitions.length ∧
      (∀ marks, (((result.inlineAuxiliaries auxiliaries).run marks).1 == nestedRepetition) = true) ∧
      result.repeated = [] := by
  have accepted : nestedRepetition.Accepted := by decide +kernel
  have exact : nestedRepetition.IsExact := by decide +kernel
  refine ⟨accepted, exact, ?_, ?_⟩
  · have repeats : nestedRepetition.repeated.isEmpty = false := by decide +kernel
    intro none
    rw [none] at repeats
    cases repeats
  · obtain ⟨⟨result, auxiliaries, run, lengths, restores, ends⟩, _⟩ :=
      inlining_restores_hoisted_tree nestedRepetition accepted exact 0
    exact ⟨result, auxiliaries, run, lengths, restores, ends (wellMarked_unmarked 0)⟩

end Expr

end SymbolicAlgebra
