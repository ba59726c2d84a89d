import SymbolicAlgebra.Proofs.Composition
import SymbolicAlgebra.Proofs.Solving

/-!
# The unknown in reported solutions

The solver knows of a variable in a side of an equation when it finds it below
arithmetic, negations and square roots, and it knows that a side is free of it
when it has looked through all of the side.  Of other nodes it knows nothing.

What is moved to the other side is free of the variable, and no operation brings
in a variable of its own.  So the unknown is in a reported solution only when it
was found in one side of the equation and hidden in the other.
-/

namespace SymbolicAlgebra

/-! ## What the solver knows -/

namespace Presence

variable {start : Presence} {parts : List Presence}

theorem foldl_join_eq_absent :
    parts.foldl join start = .absent ↔ start = .absent ∧ ∀ part ∈ parts, part = .absent := by
  induction parts generalizing start with
  | nil => simp
  | cons part parts ih =>
      rw [List.foldl_cons, ih, List.forall_mem_cons]
      cases start <;> cases part <;> simp [join]

theorem foldl_join_eq_found :
    parts.foldl join start = .found ↔ start = .found ∨ .found ∈ parts := by
  induction parts generalizing start with
  | nil => simp
  | cons part parts ih =>
      rw [List.foldl_cons, ih, List.mem_cons]
      cases start <;> cases part <;> simp [join]

end Presence

namespace Expr

variable {name : String} {tree child : Expr}

theorem presence_node (inner : tree.isLeaf = false) :
    tree.presence name =
      if tree.isTransparent then (tree.children.map (presence name)).foldl Presence.join .absent
      else .unknown :=
  fold_node inner

/-- A tree that is known to be free of a variable does not mention it. -/
theorem not_mem_of_isFree (free : isFree name tree = true) : name ∉ tree.occurrences := by
  rw [isFree, decide_eq_true_iff] at free
  induction tree using induction_children with
  | leaf tree isLeaf =>
      rw [presence, fold_leaf isLeaf] at free
      cases tree with
      | var other mark =>
          intro occurs
          rw [leafPresence, if_pos (List.mem_singleton.mp occurs).symm] at free
          cases free
      | number | bool | char | text | error => exact List.not_mem_nil
      | _ => cases isLeaf
  | node tree inner ih =>
      rw [presence_node inner] at free
      split at free
      · rw [Presence.foldl_join_eq_absent] at free
        intro occurs
        obtain ⟨child, member, deeper⟩ := (mem_occurrences_node inner).mp occurs
        exact ih child member (free.2 _ (List.mem_map_of_mem member)) deeper
      · cases free

/-- A variable that is found in an operand is found in the node. -/
theorem found_of_mem_children (transparent : tree.isTransparent = true)
    (member : child ∈ tree.children) (found : child.presence name = .found) :
    tree.presence name = .found := by
  have inner : tree.isLeaf = false := by
    cases tree <;> first | rfl | cases transparent
  rw [presence_node inner, if_pos transparent, Presence.foldl_join_eq_found]
  exact .inr (List.mem_map.mpr ⟨child, member, found⟩)

end Expr

/-! ## Operations bring in no variables -/

namespace Expr

variable {name : String} {left right : Expr}

theorem occurrences_composed (names : List String) :
    Composed true (·.occurrences ⊆ names) where
  value {tree} isLeaf notVar := by
    rw [occurrences, fold_leaf isLeaf, notVar]
    exact List.nil_subset names
  node tree plain _ := by
    simp only [List.subset_def, mem_occurrences_node (isLeaf_of_isPlain plain)]
    constructor
    · intro within child member name occurs
      exact within ⟨child, member, occurs⟩
    · rintro within name ⟨child, member, occurs⟩
      exact within child member occurs

theorem occurrences_arithmetic (op : ArithOp) (left right : Expr) :
    (arithmetic op left right).Ensures (fun _ => True)
      (·.occurrences ⊆ left.occurrences ++ right.occurrences) :=
  (occurrences_composed _).arithmetic_keeps (List.subset_append_left _ _)
    (List.subset_append_right _ _)

theorem occurrences_dividedBy (tree divisor : Expr) :
    (tree.dividedBy divisor).Ensures (fun _ => True)
      (·.occurrences ⊆ tree.occurrences ++ divisor.occurrences) :=
  (occurrences_composed _).dividedBy_keeps (List.subset_append_left _ _)
    (List.subset_append_right _ _)

theorem occurrences_rootBy (exponent right : Expr) :
    (rootBy exponent right).Ensures (fun _ => True)
      (·.occurrences ⊆ right.occurrences ++ exponent.occurrences) :=
  (occurrences_composed _).rootBy_keeps (List.subset_append_right _ _)
    (List.subset_append_left _ _)

/-! ## Inverse steps -/

/-- A variable that is found in what stays was found in the side, and one that is
in the new other side was in the old one. -/
def KeepsKnowledge (name : String) (left right : Expr) (sides : Expr × Expr) : Prop :=
  (sides.1.presence name = .found → left.presence name = .found) ∧
    (name ∈ sides.2.occurrences → name ∈ right.occurrences)

theorem peelArith_keepsKnowledge (name : String) (op : ArithOp) (first second right : Expr)
    (mark : Mark) :
    (peelArith name op first second right).Ensures (fun _ => True)
      (KeepsKnowledge name (.arith op first second mark) right) := by
  have stays (operand : Expr) (member : operand ∈ [first, second]) :
      operand.presence name = .found → (Expr.arith op first second mark).presence name = .found :=
    found_of_mem_children rfl member
  have stayingFirst := stays first (by simp)
  have stayingSecond := stays second (by simp)
  have moved {operand inverse : Expr} (free : isFree name operand = true)
      (within : inverse.occurrences ⊆ right.occurrences ++ operand.occurrences)
      (occurs : name ∈ inverse.occurrences) : name ∈ right.occurrences :=
    (List.mem_append.mp (within occurs)).resolve_right (not_mem_of_isFree free)
  have movedBack {operand inverse : Expr} (free : isFree name operand = true)
      (within : inverse.occurrences ⊆ operand.occurrences ++ right.occurrences)
      (occurs : name ∈ inverse.occurrences) : name ∈ right.occurrences :=
    (List.mem_append.mp (within occurs)).resolve_left (not_mem_of_isFree free)
  unfold peelArith
  split
  · rename_i free
    cases op with
    | add | sub | div =>
        exact .bind (.lift (occurrences_arithmetic _ right second)) fun _ within =>
          .pure ⟨stayingFirst, moved free within⟩
    | mul =>
        exact .bind (.lift (occurrences_dividedBy right second)) fun _ within =>
          .pure ⟨stayingFirst, moved free within⟩
    | pow =>
        exact .bind (.lift (occurrences_rootBy second right)) fun _ within =>
          .pure ⟨stayingFirst, moved free within⟩
  · split
    · rename_i free
      cases op with
      | add =>
          exact .bind (.lift (occurrences_arithmetic _ right first)) fun _ within =>
            .pure ⟨stayingSecond, moved free within⟩
      | sub =>
          exact .bind (.lift (occurrences_arithmetic _ first right)) fun _ within =>
            .pure ⟨stayingSecond, movedBack free within⟩
      | mul =>
          exact .bind (.lift (occurrences_dividedBy right first)) fun _ within =>
            .pure ⟨stayingSecond, moved free within⟩
      | div =>
          exact .bind (.lift (occurrences_dividedBy first right)) fun _ within =>
            .pure ⟨stayingSecond, movedBack free within⟩
      | pow => exact .failure
    · exact .failure

theorem peel_keepsKnowledge (name : String) (left right : Expr) :
    (peel name left right).Ensures (fun _ => True) (KeepsKnowledge name left right) := by
  have inverse : (inverseStep name left right).Ensures (fun _ => True)
      (KeepsKnowledge name left right) := by
    unfold inverseStep
    split
    · exact peelArith_keepsKnowledge name _ _ _ right _
    · have negated := (occurrences_composed _).neg_keeps (List.Subset.refl right.occurrences)
      exact .bind (.lift negated) fun _ within =>
        .pure ⟨found_of_mem_children rfl (List.mem_singleton.mpr rfl), @within name⟩
    · have negated := (occurrences_composed _).negation_keeps (List.Subset.refl right.occurrences)
      exact .bind (.lift (.ofMarking negated)) fun _ within =>
        .pure ⟨found_of_mem_children rfl (List.mem_singleton.mpr rfl), @within name⟩
    · refine .bind (.lift (occurrences_arithmetic .pow right (.int 2))) fun _ within =>
        .pure ⟨found_of_mem_children rfl (List.mem_singleton.mpr rfl), fun occurs => ?_⟩
      exact (List.mem_append.mp (within occurs)).resolve_right List.not_mem_nil
    · exact .failure
  exact .bind inverse fun sides keeps => .bind (.lift .step) fun _ _ => .pure keeps

/-! ## Reported solutions -/

/-- What a solution that the result reports says of the side that was solved and
of the other side. -/
def Reports (name : String) (left right result : Expr) : Prop :=
  ∀ solution inner outer, result = .relation .equal (.var name inner) solution outer →
    left.presence name = .found ∧ (name ∈ solution.occurrences → name ∈ right.occurrences)

theorem reports_of_isError {result : Expr} (isError : result.isError = true) :
    Reports name left right result := by
  rintro solution inner outer rfl
  cases isError

theorem reports_unresolvedSolution (equation : Expr) :
    (equation.unresolvedSolution name).Ensures (Reports name left right) :=
  fun _ => nofun

theorem solved_reports (name : String) (left right : Expr) :
    (solved name left right).Ensures (Reports name left right) := by
  have made : (make (.relation .equal left right)).Ensures
      fun equation => ∃ mark, equation = .relation .equal left right mark :=
    .make fun mark => ⟨mark, rfl⟩
  refine .bind made ?_
  rintro _ ⟨mark, rfl⟩
  split
  · refine .pure ?_
    rintro solution inner outer ⟨⟩
    exact ⟨if_pos rfl, id⟩
  · exact reports_unresolvedSolution _

/-- However many steps a run takes, the solution that it reports is for a variable
that was found, and mentions it only if the other side did. -/
theorem isolate_reports (name : String) (steps : Nat) (left right : Expr) :
    (isolate name steps left right).Ensures (fun _ => True) (Reports name left right) := by
  induction steps generalizing left right with
  | zero => exact .ofMarking (solved_reports name left right)
  | succ steps ih =>
      rw [isolate]
      split
      · exact .ofMarking (solved_reports name left right)
      · refine (peel_keepsKnowledge name left right).run_match ?_
          (.ofMarking (solved_reports name left right))
        rintro ⟨rest, inverse⟩ ⟨found, old⟩
        dsimp only
        split
        · exact .pure (reports_of_isError ‹_›)
        · -- Both parts of the invariant go back from the sides after the step to those before.
          refine (ih rest inverse).mono fun result reports solution inner outer isSolution => ?_
          obtain ⟨restFound, mentions⟩ := reports solution inner outer isSolution
          exact ⟨found restFound, fun occurs => old (mentions occurs)⟩

/-- The variable is found in one of two trees and occurs in the other, where the
solver does not see it. -/
def HiddenBeside (name : String) (seen other : Expr) : Prop :=
  seen.presence name = .found ∧ other.presence name = .unknown ∧ name ∈ other.occurrences

instance (name : String) (seen other : Expr) : Decidable (HiddenBeside name seen other) :=
  inferInstanceAs (Decidable (_ ∧ _ ∧ _))

theorem Reports.hidden {result solution : Expr} {inner outer : Mark}
    (reports : Reports name left right result)
    (isSolution : result = .relation .equal (.var name inner) solution outer)
    (notFound : right.presence name ≠ .found) (mentions : name ∈ solution.occurrences) :
    HiddenBeside name left right := by
  have ⟨found, occurs⟩ := reports solution inner outer isSolution
  refine ⟨found, ?_, occurs mentions⟩
  cases known : right.presence name with
  | found => exact absurd known notFound
  | absent =>
      have free : isFree name right = true := by simp [isFree, known]
      exact absurd (occurs mentions) (not_mem_of_isFree free)
  | unknown => rfl

/-- An equation is solved on a side while the variable is not found in the other. -/
theorem solve_reports (name : String) (left right : Expr) (mark : Mark) :
    ((Expr.relation .equal left right mark).solve name).Ensures (fun _ => True) fun result =>
      (right.presence name ≠ .found ∧ Reports name left right result) ∨
        (left.presence name ≠ .found ∧ Reports name right left result) ∨
        ∀ solution inner outer, result ≠ .relation .equal (.var name inner) solution outer := by
  have refuses : ((Expr.relation .equal left right mark).unresolvedSolution name).Ensures
      fun result => ∀ solution inner outer,
        result ≠ .relation .equal (.var name inner) solution outer :=
    fun _ => nofun
  have fine : (Expr.relation .equal left right mark).isError = false := rfl
  rw [solve, fine, if_neg Bool.false_ne_true]
  split
  · exact .ofMarking (refuses.mono fun _ other => .inr (.inr other))
  · exact .ofMarking (refuses.mono fun _ other => .inr (.inr other))
  · rename_i notBoth
    exact (isolate_reports name _ right left).mono fun _ reports =>
      .inr (.inl ⟨notBoth, reports⟩)
  · rename_i notFound _ _
    exact (isolate_reports name _ left right).mono fun _ reports => .inl ⟨notFound, reports⟩

/-- A reported solution of an equation does not mention the unknown, unless the
solver found it in one side of the equation and could not see it in the other,
where it occurs below a node that the solver does not look through. -/
theorem reported_solution_omits_the_unknown (left right solution : Expr) (name : String)
    (mark inner outer : Mark) (start : Nat)
    (solves : ((Expr.relation .equal left right mark).solve name).value start =
      .relation .equal (.var name inner) solution outer)
    (visibleRight : ¬HiddenBeside name left right) (visibleLeft : ¬HiddenBeside name right left) :
    name ∉ solution.occurrences := by
  intro mentions
  rcases solve_reports name left right mark start (fun _ _ => trivial) with
    ⟨notFound, reports⟩ | ⟨notFound, reports⟩ | other
  · exact visibleRight (reports.hidden solves notFound mentions)
  · exact visibleLeft (reports.hidden solves notFound mentions)
  · exact other _ _ _ solves

/-- The tree reports a solution for the variable. -/
def isSolvedFor (name : String) : Expr → Bool
  | .relation .equal (.var other _) _ _ => other = name
  | _ => false

theorem isSolvedFor_iff {tree : Expr} : tree.isSolvedFor name = true ↔
    ∃ solution inner outer, tree = .relation .equal (.var name inner) solution outer := by
  constructor
  · intro solved
    unfold isSolvedFor at solved
    split at solved
    · rename_i other inner solution outer
      obtain rfl : other = name := by simpa using solved
      exact ⟨solution, inner, outer, rfl⟩
    · cases solved
  · rintro ⟨solution, inner, outer, rfl⟩
    simp [isSolvedFor]

/-- In `2 * sqrt x = sin y` the right side may hide variables, but not `x`. -/
theorem square_root_equation_omits_the_unknown :
    let left : Expr := .arith .mul (.int 2) (.call .sqrt (.var "x"))
    let right : Expr := .call .sin (.var "y")
    ¬HiddenBeside "x" left right ∧ ¬HiddenBeside "x" right left ∧ ∃ solution inner outer,
      ((Expr.relation .equal left right).solve "x").value 0 =
        .relation .equal (.var "x" inner) solution outer ∧ "x" ∉ solution.occurrences := by
  intro left right
  have visibleRight : ¬HiddenBeside "x" left right := by decide +kernel
  have visibleLeft : ¬HiddenBeside "x" right left := by decide +kernel
  refine ⟨visibleRight, visibleLeft, ?_⟩
  have solves : (((Expr.relation .equal left right).solve "x").value 0).isSolvedFor "x" = true := by
    decide +kernel
  obtain ⟨solution, inner, outer, value⟩ := isSolvedFor_iff.mp solves
  exact ⟨solution, inner, outer, value, reported_solution_omits_the_unknown left right solution
    "x" _ inner outer 0 value visibleRight visibleLeft⟩

/-- The equation `x = sin x` counts as solved for `x`. -/
theorem fixed_point_equation_is_reported_as_solved :
    ∃ solution inner outer,
      ((Expr.relation .equal (.var "x") (.call .sin (.var "x"))).solve "x").value 0 =
        .relation .equal (.var "x" inner) solution outer ∧ "x" ∈ solution.occurrences :=
  ⟨_, _, _, rfl, by decide +kernel⟩

end Expr

end SymbolicAlgebra
