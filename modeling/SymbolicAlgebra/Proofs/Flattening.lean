import SymbolicAlgebra.Proofs.Inlining
import SymbolicAlgebra.Proofs.Positions

/-!
# Flattening leaves nothing to share

A step of hoisting takes a repeated subtree of greatest height and leaves none of
its occurrences.  Every step removes inner nodes, even where the number of all
nodes stays the same, as it does when empty arrays give way to variables.  The
steps therefore come to an end, and at the end no two positions hold equal inner
nodes.
-/

namespace SymbolicAlgebra

namespace Expr

variable {tree other node built subtree : Expr} {start : Nat} {auxiliaries extended : Auxiliaries}

/-! ## Repetitions -/

/-- The inner node stands at one position of the tree, and another position holds
a tree equal to it. -/
def Repeats (tree node : Expr) : Prop :=
  node.isLeaf = false ∧ ∃ first second twin, first ≠ second ∧
    tree.nodeAt? first = some node ∧ tree.nodeAt? second = some twin ∧ (twin == node) = true

theorem mem_repeated_iff (exact : tree.IsExact) : node ∈ tree.repeated ↔ tree.Repeats node := by
  rw [mem_repeated_iff_references, references]
  have several : 1 < tree.subtrees.countP (· == node) ↔
      ∃ first second, first ∈ passing (· == node) tree ∧ second ∈ passing (· == node) tree ∧
        first ≠ second := by
    rw [← Set.one_lt_encard_iff, encard_passing, Nat.one_lt_cast]
  constructor
  · rintro ⟨below, inner, repeats⟩
    obtain ⟨position, found⟩ := mem_subtrees_iff_nodeAt?.mp below
    obtain ⟨first, second, firstPasses, secondPasses, different⟩ := several.mp repeats
    -- One of the two positions is not that of the node itself.
    obtain ⟨elsewhere, apart, passes⟩ :
        ∃ elsewhere, position ≠ elsewhere ∧ elsewhere ∈ passing (· == node) tree := by
      by_cases same : position = first
      · exact ⟨second, same ▸ different, secondPasses⟩
      · exact ⟨first, same, firstPasses⟩
    obtain ⟨twin, twinFound, equal⟩ := (Option.any_eq_true _ _).mp passes
    exact ⟨inner, position, elsewhere, twin, apart, found, twinFound, equal⟩
  · rintro ⟨inner, first, second, twin, different, found, twinFound, equal⟩
    have below := mem_subtrees_iff_nodeAt?.mpr ⟨first, found⟩
    refine ⟨below, inner, several.mpr ⟨first, second, ?_, ?_, different⟩⟩
    · simp [passing, found, (beq_iff_of_mem exact below).mpr]
    · simp [passing, twinFound, equal]

/-! ## One step -/

/-- A subtree of greatest height among those that repeat, none of which is left in
the next tree. -/
structure HoistsHighest (tree subtree next : Expr) : Prop where
  repeats : tree.Repeats subtree
  height : ∀ other, tree.Repeats other → other.height ≤ subtree.height
  gone : ∀ position node, next.nodeAt? position = some node → (node == subtree) = false

/-- Trees on which steps succeed, with marks that were all given out before. -/
structure Ready (start : Nat) (tree : Expr) : Prop where
  isExact : tree.IsExact
  accepted : tree.Accepted
  marked : tree.MarkedBelow start

/-- One step leaves a tree without repetitions as it is, and else it hoists a
repeated subtree of greatest height.  The next tree has fewer inner nodes. -/
theorem Ready.hoist (ready : tree.Ready start) (auxiliaries : Auxiliaries) :
    ((tree.hoist auxiliaries).value start = .ok (tree, auxiliaries) ∧
        ∀ node, ¬tree.Repeats node) ∨
      ∃ name subtree built,
        (tree.hoist auxiliaries).value start = .ok (built, auxiliaries.push name subtree) ∧
          tree.HoistsHighest subtree built ∧
          built.Ready ((tree.hoist auxiliaries).marks start) ∧
          built.innerNodes < tree.innerNodes := by
  obtain ⟨exact, accepted, marked⟩ := ready
  rcases hoist_cases exact accepted auxiliaries start with
    ⟨nothing, value⟩ | ⟨name, subtree, built, hoists⟩
  · refine .inl ⟨value, fun node repeats => ?_⟩
    rw [← mem_repeated_iff exact, nothing] at repeats
    exact absurd repeats List.not_mem_nil
  · have hoisted := hoists.hoisted
    have ok := hoists.introduced
    have ⟨below, inner, _⟩ := mem_repeated_iff_references.mp hoists.repeats
    refine .inr ⟨name, subtree, built, hoists.value, ⟨?_, ?_, ?_⟩,
      ⟨hoisted.isExact, hoisted.accepted, ?_⟩, ?_⟩
    · exact (mem_repeated_iff exact).mp hoists.repeats
    · intro other otherRepeats
      exact hoists.highest other ((mem_repeated_iff exact).mpr otherRepeats)
    · intro position node inPlace
      have member := mem_subtrees_iff_nodeAt?.mpr ⟨position, inPlace⟩
      rw [Bool.eq_false_iff, Ne, beq_iff_of_mem hoisted.isExact member]
      exact unmarked_ne_of_introduce exact marked hoists.fresh below inner ok member
    · rw [hoists.marks]
      have origins := introduce_hasOrigin exact mem_subtrees_self rfl ok
      exact markedBelow_of_hasOrigin marked rfl origins
    · exact innerNodes_introduce_lt exact marked rfl rfl below inner ok

/-! ## A run -/

/-- Every bound on the number of steps that exceeds the number of inner nodes gives
the same result, in which nothing repeats. -/
theorem Ready.flattenTo (ready : tree.Ready start) (auxiliaries : Auxiliaries) :
    ∃ result extended, (∀ node, ¬result.Repeats node) ∧ ∀ bound, tree.innerNodes < bound →
      (flattenTo bound tree auxiliaries).value start = .ok (result, extended) := by
  induction count : tree.innerNodes using Nat.strongRecOn generalizing tree auxiliaries start with
  | ind count ih =>
      rcases ready.hoist auxiliaries with
        ⟨value, nothing⟩ | ⟨name, subtree, built, value, _, next, fewer⟩
      · refine ⟨tree, auxiliaries, nothing, fun bound enough => ?_⟩
        obtain ⟨steps, rfl⟩ := Nat.exists_eq_add_one.mpr (Nat.zero_lt_of_lt enough)
        rw [Expr.flattenTo, Traced.value_bind]
        simp [value]
      · obtain ⟨result, extended, settled, run⟩ :=
          ih built.innerNodes (count ▸ fewer) next (auxiliaries.push name subtree) rfl
        refine ⟨result, extended, settled, fun bound enough => ?_⟩
        obtain ⟨steps, rfl⟩ := Nat.exists_eq_add_one.mpr (Nat.zero_lt_of_lt enough)
        have longer : (auxiliaries.push name subtree).names.length ≠ auxiliaries.names.length := by
          simp [Auxiliaries.push]
        rw [Expr.flattenTo, Traced.value_bind]
        simp only [value, if_neg longer]
        exact run steps (by omega)

/-- On every tree that checked construction accepts and that holds no doubles,
flattening comes to an end, however many more steps it may take than there are
inner nodes, and in its result no two positions hold equal inner nodes.  Each step
that hoists anything hoists a subtree of greatest height among the inner nodes that
repeat and leaves no occurrence of it. -/
theorem flattening_leaves_nothing_to_share (tree : Expr) (auxiliaries : Auxiliaries) (start : Nat)
    (accepted : tree.Accepted) (exact : tree.IsExact) (marked : tree.MarkedBelow start) :
    (∃ result extended, (tree.flatten auxiliaries).value start = .ok (result, extended) ∧
      (∀ bound, tree.innerNodes < bound →
        (flattenTo bound tree auxiliaries).value start = .ok (result, extended)) ∧
      ∀ node, ¬result.Repeats node) ∧
    (∃ result extended, (tree.hoist auxiliaries).value start = .ok (result, extended) ∧
      ((result = tree ∧ extended = auxiliaries ∧ ∀ node, ¬tree.Repeats node) ∨
        ∃ name subtree, extended = auxiliaries.push name subtree ∧
          tree.HoistsHighest subtree result)) := by
  have ready : tree.Ready start := ⟨exact, accepted, marked⟩
  constructor
  · obtain ⟨result, extended, settled, run⟩ := ready.flattenTo auxiliaries
    exact ⟨result, extended, run _ (Nat.lt_succ_of_le innerNodes_le_size), run, settled⟩
  · rcases ready.hoist auxiliaries with
      ⟨value, nothing⟩ | ⟨name, subtree, built, value, highest, _⟩
    · exact ⟨tree, auxiliaries, value, .inl ⟨rfl, rfl, nothing⟩⟩
    · exact ⟨built, _, value, .inr ⟨name, subtree, rfl, highest⟩⟩

/-- Sines of an empty array and empty arrays, two of each. -/
def repeatedEmptyArrays : Expr :=
  unmarked (.array [.call .sin (.array []), .call .sin (.array []), .array [], .array []])

theorem repeatedEmptyArrays_leave_nothing_to_share :
    repeatedEmptyArrays.Accepted ∧ repeatedEmptyArrays.IsExact ∧
    repeatedEmptyArrays.MarkedBelow 0 ∧
    (∃ result extended, (repeatedEmptyArrays.flatten .empty).value 0 = .ok (result, extended) ∧
      ∀ node, ¬result.Repeats node) ∧
    ∃ result name subtree, (repeatedEmptyArrays.hoist .empty).value 0 =
        .ok (result, Auxiliaries.empty.push name subtree) ∧
      repeatedEmptyArrays.HoistsHighest subtree result := by
  have accepted : repeatedEmptyArrays.Accepted := by decide +kernel
  have exact : repeatedEmptyArrays.IsExact := by decide +kernel
  have marked : repeatedEmptyArrays.MarkedBelow 0 := (wellMarked_unmarked 0).below
  obtain ⟨⟨result, extended, run, _, settled⟩, next, pushed, value, hoists⟩ :=
    flattening_leaves_nothing_to_share repeatedEmptyArrays .empty 0 accepted exact marked
  refine ⟨accepted, exact, marked, ⟨result, extended, run, settled⟩, ?_⟩
  rcases hoists with ⟨_, unchanged, _⟩ | ⟨name, subtree, isPushed, highest⟩
  · -- Something does repeat.
    have hoisted : ((repeatedEmptyArrays.hoist .empty).value 0).toOption.any
        (!·.2.names.isEmpty) = true := by decide +kernel
    rw [value, unchanged] at hoisted
    exact absurd hoisted Bool.false_ne_true
  · exact ⟨next, name, subtree, isPushed ▸ value, highest⟩

end Expr

end SymbolicAlgebra
