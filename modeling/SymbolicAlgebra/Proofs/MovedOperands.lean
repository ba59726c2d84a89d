import SymbolicAlgebra.Proofs.Presence

/-!
# Operands that the solver moves

Whether a tree mentions the variable is looked up through arithmetic, negations
and square roots only.  An answer is never wrong: a variable that is found
occurs, and one that is absent does not.  The answer is open just where the
search stops at another node, so it is known for every variable exactly on the
trees that have no such node.

An inverse step moves an operand when the variable is known to be absent from
it.  The operand that stays therefore takes all occurrences of the variable with
it, and however many steps follow, none of them reaches the other side.
-/

namespace SymbolicAlgebra

namespace Expr

variable {name : String} {tree left right : Expr}

/-! ## Answers of the search -/

theorem presence_leaf (isLeaf : tree.isLeaf = true) :
    tree.presence name = leafPresence name tree :=
  fold_leaf isLeaf

/-- A variable that is found in a tree occurs in it. -/
theorem mem_of_presence_found (found : tree.presence name = .found) :
    name ∈ tree.occurrences := by
  induction tree using induction_children with
  | leaf tree isLeaf =>
      rw [presence_leaf isLeaf] at found
      cases tree with
      | var other mark =>
          have same : other = name := by
            by_contra different
            rw [leafPresence, if_neg different] at found
            cases found
          exact List.mem_singleton.mpr same.symm
      | number | bool | char | text | error => cases found
      | _ => cases isLeaf
  | node tree inner ih =>
      rw [presence_node inner] at found
      split at found
      · rw [Presence.foldl_join_eq_found] at found
        obtain ⟨child, member, childFound⟩ := List.mem_map.mp (found.resolve_left (by decide))
        exact (mem_occurrences_node inner).mpr ⟨child, member, ih child member childFound⟩
      · cases found

/-- The trees that the solver sees through to their leaves: constants and variables
under arithmetic, negations and square roots. -/
inductive IsSeenThrough : Expr → Prop where
  | number (value : Number) (mark : Mark) : IsSeenThrough (.number value mark)
  | bool (value : Bool) (mark : Mark) : IsSeenThrough (.bool value mark)
  | char (value : Char) (mark : Mark) : IsSeenThrough (.char value mark)
  | text (value : String) (mark : Mark) : IsSeenThrough (.text value mark)
  | var (other : String) (mark : Mark) : IsSeenThrough (.var other mark)
  | unary (op : UnaryOp) {operand : Expr} (mark : Mark) (seen : IsSeenThrough operand) :
      IsSeenThrough (.unary op operand mark)
  | arith (op : ArithOp) {left right : Expr} (mark : Mark) (leftSeen : IsSeenThrough left)
      (rightSeen : IsSeenThrough right) : IsSeenThrough (.arith op left right mark)
  | sqrt {argument : Expr} (mark : Mark) (seen : IsSeenThrough argument) :
      IsSeenThrough (.call .sqrt argument mark)

theorem isSeenThrough_node (inner : tree.isLeaf = false) :
    tree.IsSeenThrough ↔
      tree.isTransparent = true ∧ ∀ child ∈ tree.children, child.IsSeenThrough := by
  constructor
  · intro seen
    cases seen with
    | number | bool | char | text | var => cases inner
    | unary op mark seen | sqrt mark seen => exact ⟨rfl, by simpa [children] using seen⟩
    | arith op mark leftSeen rightSeen => exact ⟨rfl, by simp [children, leftSeen, rightSeen]⟩
  · rintro ⟨transparent, seen⟩
    cases tree with
    | unary op operand mark => exact .unary op mark (seen operand (by simp [children]))
    | arith op left right mark =>
        exact .arith op mark (seen left (by simp [children])) (seen right (by simp [children]))
    | call function argument mark =>
        cases function with
        | sqrt => exact .sqrt mark (seen argument (by simp [children]))
        | _ => cases transparent
    | _ => cases transparent

/-- The search knows of no absence in a tree that it does not see through. -/
theorem isSeenThrough_of_presence_absent (absent : tree.presence name = .absent) :
    tree.IsSeenThrough := by
  induction tree using induction_children with
  | leaf tree isLeaf =>
      rw [presence_leaf isLeaf] at absent
      cases tree with
      | number value mark => exact .number value mark
      | bool value mark => exact .bool value mark
      | char value mark => exact .char value mark
      | text value mark => exact .text value mark
      | var other mark => exact .var other mark
      | error => cases absent
      | _ => cases isLeaf
  | node tree inner ih =>
      rw [presence_node inner] at absent
      split at absent
      · rename_i transparent
        rw [Presence.foldl_join_eq_absent] at absent
        refine (isSeenThrough_node inner).mpr ⟨transparent, fun child member => ?_⟩
        exact ih child member (absent.2 _ (List.mem_map_of_mem member))
      · cases absent

namespace IsSeenThrough

theorem presence_eq_found (seen : tree.IsSeenThrough) (member : name ∈ tree.occurrences) :
    tree.presence name = .found := by
  induction seen with
  | number | bool | char | text => cases member
  | var other mark => exact if_pos (List.mem_singleton.mp member).symm
  | unary op mark seen ih | sqrt mark seen ih =>
      exact found_of_mem_children rfl (by simp [children]) (ih (by simpa using member))
  | arith op mark leftSeen rightSeen leftIH rightIH =>
      rw [occurrences_arith, List.mem_append] at member
      rcases member with inLeft | inRight
      · exact found_of_mem_children rfl (by simp [children]) (leftIH inLeft)
      · exact found_of_mem_children rfl (by simp [children]) (rightIH inRight)

theorem presence_eq_absent (seen : tree.IsSeenThrough) (notMember : name ∉ tree.occurrences) :
    tree.presence name = .absent := by
  induction tree using induction_children with
  | leaf tree isLeaf =>
      rw [presence_leaf isLeaf]
      cases seen with
      | var other mark => exact if_neg fun same => notMember (List.mem_singleton.mpr same.symm)
      | number | bool | char | text => rfl
      | _ => cases isLeaf
  | node tree inner ih =>
      obtain ⟨transparent, childrenSeen⟩ := (isSeenThrough_node inner).mp seen
      rw [presence_node inner, if_pos transparent, Presence.foldl_join_eq_absent]
      refine ⟨rfl, List.forall_mem_map.mpr fun child member => ?_⟩
      have deeper : name ∉ child.occurrences := fun occurs =>
        notMember ((mem_occurrences_node inner).mpr ⟨child, member, occurs⟩)
      exact ih child member (childrenSeen child member) deeper

end IsSeenThrough

/-- The trees on which the search has an answer for every variable. -/
theorem isSeenThrough_iff : tree.IsSeenThrough ↔ ∀ name, tree.presence name ≠ .unknown := by
  constructor
  · intro seen name unknown
    by_cases member : name ∈ tree.occurrences
    · rw [seen.presence_eq_found member] at unknown
      cases unknown
    · rw [seen.presence_eq_absent member] at unknown
      cases unknown
  · intro known
    -- A variable that does not occur cannot be found, so it is known to be absent.
    obtain ⟨fresh, notMember⟩ := Infinite.exists_notMem_finset tree.occurrences.toFinset
    rw [List.mem_toFinset] at notMember
    cases answer : tree.presence fresh with
    | found => exact absurd (mem_of_presence_found answer) notMember
    | absent => exact isSeenThrough_of_presence_absent answer
    | unknown => exact absurd answer (known fresh)

/-! ## One inverse step -/

/-- One operand of a side stays and the others, which are moved, do not mention the
variable. -/
def MovesFreeOperands (name : String) (left rest : Expr) : Prop :=
  ∃ before after, left.children = before ++ rest :: after ∧
    ∀ operand ∈ before ++ after, operand.containsVariable name = false

theorem containsVariable_of_isFree (free : isFree name tree = true) :
    tree.containsVariable name = false := by
  rw [← Bool.not_eq_true, containsVariable_iff]
  exact not_mem_of_isFree free

namespace MovesFreeOperands

variable {rest first second : Expr} {op : ArithOp} {mark : Mark}

theorem single (only : left.children = [rest]) : MovesFreeOperands name left rest :=
  ⟨[], [], only, List.forall_mem_nil _⟩

theorem keepFirst (free : isFree name second = true) :
    MovesFreeOperands name (.arith op first second mark) first :=
  ⟨[], [second], rfl, List.forall_mem_singleton.mpr (containsVariable_of_isFree free)⟩

theorem keepSecond (free : isFree name first = true) :
    MovesFreeOperands name (.arith op first second mark) second :=
  ⟨[first], [], rfl, List.forall_mem_singleton.mpr (containsVariable_of_isFree free)⟩

/-- All occurrences of the variable are in the operand that stays. -/
theorem count_eq (moves : MovesFreeOperands name left rest) :
    rest.occurrences.count name = left.occurrences.count name := by
  obtain ⟨before, after, split, free⟩ := moves
  have member : rest ∈ left.children := by simp [split]
  have none {operands : List Expr} (within : operands ⊆ before ++ after) :
      (operands.map occurrences).flatten.count name = 0 := by
    rw [List.count_eq_zero, ← List.flatMap_def, List.mem_flatMap]
    rintro ⟨operand, isOperand, occurs⟩
    have absent := free operand (within isOperand)
    rw [containsVariable_iff.mpr occurs] at absent
    cases absent
  calc rest.occurrences.count name
      = ((before ++ rest :: after).map occurrences).flatten.count name := by
        simp [none (List.subset_append_left before after),
          none (List.subset_append_right before after)]
    _ = left.occurrences.count name := by
        rw [← split]
        exact congrArg (List.count name) (fold_node (isLeaf_of_mem_children member)).symm

end MovesFreeOperands

theorem peelArith_moves (name : String) (op : ArithOp) (first second right : Expr) (mark : Mark) :
    (peelArith name op first second right).Ensures (fun _ => True) fun sides =>
      MovesFreeOperands name (.arith op first second mark) sides.1 := by
  unfold peelArith
  split
  · rename_i free
    cases op <;> exact .bind (.lift fun _ _ => trivial) fun _ (_ : True) => .pure (.keepFirst free)
  · split
    · rename_i free
      cases op with
      | pow => exact .failure
      | add | sub | mul | div =>
          exact .bind (.lift fun _ _ => trivial) fun _ (_ : True) => .pure (.keepSecond free)
    · exact .failure

/-- An inverse step moves an operand only when the variable is known to be absent
from it. -/
theorem peel_moves (name : String) (left right : Expr) :
    (peel name left right).Ensures (fun _ => True) fun sides =>
      MovesFreeOperands name left sides.1 := by
  have inverse : (inverseStep name left right).Ensures (fun _ => True) fun sides =>
      MovesFreeOperands name left sides.1 := by
    unfold inverseStep
    split
    · exact peelArith_moves name _ _ _ right _
    · exact .bind (.lift fun _ _ => trivial) fun _ (_ : True) => .pure (.single rfl)
    · exact .bind (.lift fun _ _ => trivial) fun _ (_ : True) => .pure (.single rfl)
    · exact .bind (.lift fun _ _ => trivial) fun _ (_ : True) => .pure (.single rfl)
    · exact .failure
  exact .bind inverse fun sides moves => .bind (.lift .step) fun _ _ => .pure moves

/-- An inverse step keeps the variable on its side: the operands that it moves do
not mention the variable, and the new other side does so only if the old one did. -/
structure KeepsApart (name : String) (left right rest inverse : Expr) : Prop where
  moves : MovesFreeOperands name left rest
  arrives : inverse.containsVariable name = true → right.containsVariable name = true

theorem peel_keepsApart (name : String) (left right : Expr) :
    (peel name left right).Ensures (fun _ => True) fun sides =>
      KeepsApart name left right sides.1 sides.2 := by
  intro start steps sides result
  have knowledge := peel_keepsKnowledge name left right start steps sides result
  refine ⟨peel_moves name left right start steps sides result, fun mentions => ?_⟩
  rw [containsVariable_iff] at mentions ⊢
  exact knowledge.2 mentions

/-! ## Runs of the solver -/

/-- The equation that a result states has the variable on the left as often as the
side that was solved, and on the right only if the other side mentions it. -/
def StatesApart (name : String) (left right result : Expr) : Prop :=
  ∀ newLeft newRight, result.statedEquation? = some (newLeft, newRight) →
    newLeft.occurrences.count name = left.occurrences.count name ∧
      (newRight.containsVariable name = true → right.containsVariable name = true)

theorem statesApart_of_stated {result : Expr}
    (stated : result.statedEquation? = some (left, right)) :
    StatesApart name left right result := by
  intro newLeft newRight same
  obtain ⟨rfl, rfl⟩ := Prod.mk.inj (Option.some.inj (stated.symm.trans same))
  exact ⟨rfl, id⟩

/-- However many inverse steps a run takes, no occurrence of the variable changes
sides. -/
theorem isolate_statesApart (name : String) (steps : Nat) (left right : Expr) :
    (isolate name steps left right).Ensures (fun _ => True) (StatesApart name left right) := by
  have ends (left right : Expr) : (solved name left right).Ensures (StatesApart name left right) :=
    solved_states.mono fun _ states => statesApart_of_stated states.1
  induction steps generalizing left right with
  | zero => exact .ofMarking (ends left right)
  | succ steps ih =>
      rw [isolate]
      split
      · exact .ofMarking (ends left right)
      · refine (peel_keepsApart name left right).run_match ?_ (.ofMarking (ends left right))
        rintro ⟨rest, inverse⟩ ⟨moves, arrives⟩
        dsimp only
        split
        · rename_i isError
          refine .pure fun newLeft newRight stated => ?_
          cases inverse with
          | number | error => cases stated
          | _ => cases isError
        · refine (ih rest inverse).mono fun result apart newLeft newRight stated => ?_
          obtain ⟨count, later⟩ := apart newLeft newRight stated
          exact ⟨count.trans moves.count_eq, fun mentions => arrives (later mentions)⟩

/-- A side of an equation that is solved keeps all its occurrences of the variable
on the left of the result, and none reaches the right from there. -/
theorem solve_statesApart (name : String) (left right : Expr) (mark : Mark) :
    ((Expr.relation .equal left right mark).solve name).Ensures (fun _ => True) fun result =>
      StatesApart name left right result ∨ StatesApart name right left result := by
  have refuses : ((Expr.relation .equal left right mark).unresolvedSolution name).Ensures
      (StatesApart name left right) :=
    unresolvedSolution_states.mono fun _ stated => statesApart_of_stated stated
  have fine : (Expr.relation .equal left right mark).isError = false := rfl
  rw [solve, fine, if_neg Bool.false_ne_true]
  split
  · exact .ofMarking (refuses.mono fun _ => .inl)
  · exact .ofMarking (refuses.mono fun _ => .inl)
  · exact (isolate_statesApart name _ right left).mono fun _ => .inr
  · exact (isolate_statesApart name _ left right).mono fun _ => .inl

/-! ## The result -/

/-- What the search for the variable answers is true, and it has an answer for the
trees that it sees through.  So an inverse step never moves an operand that
mentions the variable, and brings no occurrence of it to the other side. -/
theorem presence_is_sound_and_peel_keeps_variable_apart (name : String) :
    (∀ tree : Expr,
      (tree.presence name = .absent → tree.containsVariable name = false) ∧
      (tree.presence name = .found → tree.containsVariable name = true) ∧
      (tree.IsSeenThrough → tree.presence name ≠ .unknown)) ∧
    ∀ (left right rest inverse : Expr) (start : Nat),
      (peel name left right).run.value start = some (rest, inverse) →
        KeepsApart name left right rest inverse := by
  refine ⟨fun tree => ⟨?_, ?_, ?_⟩, ?_⟩
  · intro absent
    exact containsVariable_of_isFree (decide_eq_true absent)
  · intro found
    exact containsVariable_iff.mpr (mem_of_presence_found found)
  · intro seen
    exact isSeenThrough_iff.mp seen name
  · intro left right rest inverse start peels
    exact peel_keepsApart name left right start (fun _ _ => trivial) (rest, inverse) peels

/-- In `2 * sqrt x - y = 7` the operand `y` is moved, which is without `x`. -/
theorem subtrahend_without_the_variable_is_moved :
    let left : Expr := .arith .sub (.arith .mul (.int 2) (.call .sqrt (.var "x"))) (.var "y")
    (Expr.var "y").presence "x" = .absent ∧ (Expr.var "y").containsVariable "x" = false ∧
      left.presence "x" = .found ∧ left.containsVariable "x" = true ∧
      left.IsSeenThrough ∧ left.presence "x" ≠ .unknown ∧
      ∃ rest inverse, (peel "x" left (.int 7)).run.value 0 = some (rest, inverse) ∧
        KeepsApart "x" left (.int 7) rest inverse := by
  intro left
  obtain ⟨answers, keeps⟩ := presence_is_sound_and_peel_keeps_variable_apart "x"
  have absent : (Expr.var "y").presence "x" = .absent := by decide +kernel
  have found : left.presence "x" = .found := by decide +kernel
  have seen : left.IsSeenThrough :=
    .arith _ _ (.arith _ _ (.number _ _) (.sqrt _ (.var _ _))) (.var _ _)
  have applies : ((peel "x" left (.int 7)).run.value 0).isSome = true := by decide +kernel
  obtain ⟨⟨rest, inverse⟩, peels⟩ := Option.isSome_iff_exists.mp applies
  exact ⟨absent, (answers (.var "y")).1 absent, found, (answers left).2.1 found, seen,
    (answers left).2.2 seen, rest, inverse, peels, keeps left (.int 7) rest inverse 0 peels⟩

end Expr

end SymbolicAlgebra
