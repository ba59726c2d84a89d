import Mathlib.Data.Set.Basic
import SymbolicAlgebra.Evaluate
import SymbolicAlgebra.Proofs.Composition

/-!
# Where a tree assigns

The names that a tree assigns bound what its evaluation may write.  Evaluation
does not stay within the given tree, though: it evaluates derivatives, which are
built from parts of the tree, and values that were stored earlier.  Such trees may
still hold assignments, below loops that are refused and below derivatives that
stay unresolved, but no evaluation reaches these.

`Confined` says of a tree that all assignments that an evaluation can reach are to
given names, and to names of a smaller set where they write to the current frame.
The operations of the engine and differentiation keep it.
-/

namespace SymbolicAlgebra

namespace Expr

/-! ## Assigned names -/

/-- The targets of the assignments in a tree. -/
def assignedNames : Expr → List String :=
  fold (fun _ => []) fun node parts =>
    match node with
    | .assignment (.var name _) _ _ => name :: parts.flatten
    | _ => parts.flatten

/-- The targets of the assignments in a tree that are not inside a `for` loop, a
solution or the body of a sum. -/
def assignedHere : Expr → List String :=
  fold (fun _ => []) fun node parts =>
    match node, parts with
    | .assignment (.var name _) _ _, parts => name :: parts.flatten
    | .forLoop _ _ _ _ _, _ | .call₂ .solve _ _ _, _ => []
    | .summation _ _ _ _ _, _ :: others => others.flatten
    | _, parts => parts.flatten

variable {name : String} {tree other child : Expr}

theorem assignedNames_subset (member : child ∈ tree.children) :
    child.assignedNames ⊆ tree.assignedNames := by
  have inner := isLeaf_of_mem_children member
  intro name assigned
  have below : name ∈ (tree.children.map assignedNames).flatten :=
    List.mem_flatten.mpr ⟨_, List.mem_map_of_mem member, assigned⟩
  rw [assignedNames, fold_node inner]
  split
  · exact List.mem_cons_of_mem _ below
  · exact below

/-- The node opens a frame for some of its children. -/
def opensFrame : Expr → Bool
  | .forLoop _ _ _ _ _ | .call₂ .solve _ _ _ | .summation _ _ _ _ _ => true
  | _ => false

theorem assignedHere_subset (closed : tree.opensFrame = false) (member : child ∈ tree.children) :
    child.assignedHere ⊆ tree.assignedHere := by
  intro name assigned
  have below : name ∈ (tree.children.map assignedHere).flatten :=
    List.mem_flatten.mpr ⟨_, List.mem_map_of_mem member, assigned⟩
  rw [assignedHere, fold_node (isLeaf_of_mem_children member)]
  split
  · exact List.mem_cons_of_mem _ below
  · cases closed
  · cases closed
  · cases closed
  · exact below

theorem assignedHere_summation (body index first last : Expr) (mark : Mark) :
    (Expr.summation body index first last mark).assignedHere =
      index.assignedHere ++ (first.assignedHere ++ last.assignedHere) := by
  simp [assignedHere, fold]

theorem assignedHere_subset_assignedNames : tree.assignedHere ⊆ tree.assignedNames := by
  induction tree using induction_children with
  | leaf tree isLeaf =>
      rw [assignedHere, fold_leaf isLeaf]
      exact List.nil_subset _
  | node tree inner ih =>
      intro name assigned
      have below (assigned : name ∈ (tree.children.map assignedHere).flatten) :
          name ∈ tree.assignedNames := by
        obtain ⟨_, part, found⟩ := List.mem_flatten.mp assigned
        obtain ⟨child, member, rfl⟩ := List.mem_map.mp part
        exact assignedNames_subset member (ih child member found)
      rw [assignedHere, fold_node inner] at assigned
      split at assigned
      · rcases List.mem_cons.mp assigned with rfl | deeper
        · simp [assignedNames, fold]
        · exact below deeper
      · cases assigned
      · cases assigned
      · rename_i parts
        exact below (parts ▸ List.mem_append_right _ assigned)
      · exact below assigned

/-! ## Unresolved derivatives -/

/-- Differentiation by the variable has no rule for the tree and leaves it inside an
unresolved derivative. -/
def resists (name : String) : Expr → Bool
  | .whileLoop _ _ _ | .forLoop _ _ _ _ _ | .pause _ _ | .assignment _ _ _ => true
  | .summation _ index _ _ _ => index.asVar? = some name
  | tree@(.unary .not _ _) | tree@(.relation _ _ _ _) | tree@(.connective _ _ _ _)
  | tree@(.call₂ .diff _ _ _) | tree@(.call₂ .solve _ _ _) | tree@(.call .sign _ _)
  | tree@(.call .fact _ _) | tree@(.call .det _ _) | tree@(.call .randList _ _) =>
      tree.containsVariable name
  | _ => false

theorem size_leaf (isLeaf : tree.isLeaf = true) : tree.size = 1 := fold_leaf isLeaf

theorem map_size_eq_of_agreeAll {trees others : List Expr}
    (sizes : ∀ tree ∈ trees, ∀ other, agree tree other = true → tree.size = other.size)
    (same : agreeAll trees others = true) : trees.map size = others.map size := by
  rw [agreeAll_iff_forall₂] at same
  induction same with
  | nil => rfl
  | cons agrees _ ih =>
      rw [List.forall_mem_cons] at sizes
      rw [List.map_cons, List.map_cons, sizes.1 _ agrees, ih sizes.2]

/-- Trees that agree have the same number of nodes. -/
theorem size_eq_of_agree (same : agree tree other = true) : tree.size = other.size := by
  induction tree using induction_children generalizing other with
  | leaf tree isLeaf =>
      have otherLeaf : other.isLeaf = true := by
        cases other <;> first | rfl | (cases tree <;> first | cases same | cases isLeaf)
      rw [size_leaf isLeaf, size_leaf otherLeaf]
  | node tree inner ih =>
      rw [agree_node_iff inner] at same
      have otherInner : other.isLeaf = false := by rwa [Expr.isLeaf, ← same.1]
      rw [size_node inner, size_node otherInner,
        map_size_eq_of_agreeAll (fun child member _ => ih child member) same.2]

/-- Differentiation leaves a tree that resists it inside an unresolved derivative. -/
theorem differentiateNode_resists {derive : Expr → Traced Expr}
    (resists : tree.resists name = true) :
    (differentiateNode derive name tree).Ensures (fun _ => True)
      fun derivative => ∃ inner outer, derivative = .call₂ .diff tree (.var name inner) outer := by
  have unresolved : (tree.unresolvedDerivative name).Ensures
      fun derivative => ∃ inner outer, derivative = .call₂ .diff tree (.var name inner) outer :=
    fun _ => ⟨_, _, rfl⟩
  have mentioned {rule : Traced Expr} {Holds : Expr → Prop} (occurs : tree.containsVariable name)
      (ensures : rule.Ensures (fun _ => True) Holds) :
      (if !tree.containsVariable name then pure (.int 0) else rule).Ensures (fun _ => True)
        Holds := by
    rwa [occurs]
  cases tree with
  | whileLoop | forLoop | pause | assignment => exact .ofMarking unresolved
  | summation body index first last mark =>
      unfold differentiateNode
      dsimp only
      rw [if_pos (by simpa [Expr.resists] using resists)]
      exact .ofMarking unresolved
  | relation | connective => exact mentioned resists (.ofMarking unresolved)
  | unary op operand mark =>
      cases op with
      | neg => cases resists
      | not => exact mentioned resists (.ofMarking unresolved)
  | call function argument mark =>
      have ignored : (derive argument).Ensures (fun _ => True) fun _ => True := fun _ _ => trivial
      cases function with
      | sign | fact | det | randList =>
          exact mentioned resists (.bind ignored fun _ _ => .ofMarking unresolved)
      | _ => cases resists
  | call₂ function first second mark =>
      cases function with
      | max | min => cases resists
      | diff | solve => exact mentioned resists (.ofMarking unresolved)
  | _ => cases resists

theorem differentiate_resists (resists : tree.resists name = true) :
    (tree.differentiate name).Ensures (fun _ => True)
      fun derivative => ∃ inner outer, derivative = .call₂ .diff tree (.var name inner) outer := by
  have positive : 0 < depthFor tree.size := Nat.two_pow_pos _
  rw [differentiate, ← Nat.succ_pred_eq_of_pos positive]
  exact differentiateNode_resists resists

/-! ## Confined trees -/

/-- All assignments of a tree that an evaluation can reach are to the given names,
and the assignments to the current frame are to names of the second set.  The loops
of the tree are reached only when they are permitted, and what a derivative is taken
of only when it does not resist; its size is bounded, so that it differs from every
tree that has the size of the bound. -/
inductive Confined (loops : Bool) (names : Set String) (bound : Nat) : Set String → Expr → Prop
  | leaf {here : Set String} {tree : Expr} : tree.isLeaf = true →
      Confined loops names bound here tree
  | plain {here : Set String} {tree : Expr} : tree.isPlain = true →
      (∀ child ∈ tree.children, Confined loops names bound here child) →
        Confined loops names bound here tree
  | assignment {here : Set String} {name : String} {value : Expr} {inner outer : Mark} :
      name ∈ names → name ∈ here → Confined loops names bound here value →
        Confined loops names bound here (.assignment (.var name inner) value outer)
  | misassignment {here : Set String} {target value : Expr} {mark : Mark} : target.asVar? = none →
      Confined loops names bound here (.assignment target value mark)
  | whileLoop {here : Set String} {test body : Expr} {mark : Mark} :
      (loops = true → Confined loops names bound here test) →
        (loops = true → Confined loops names bound here body) →
          Confined loops names bound here (.whileLoop test body mark)
  | forLoop {here : Set String} {start test step body : Expr} {mark : Mark} :
      (loops = true → ∀ part ∈ [start, test, step, body],
        Confined loops names bound Set.univ part) →
          Confined loops names bound here (.forLoop start test step body mark)
  | summation {here : Set String} {body index first last : Expr} {mark : Mark} :
      (loops = true → Confined loops names bound Set.univ body) →
        (loops = true → ∀ limit ∈ [first, last], Confined loops names bound here limit) →
          Confined loops names bound here (.summation body index first last mark)
  | solution {here : Set String} {equation unknown : Expr} {mark : Mark} :
      Confined loops names bound Set.univ equation →
        Confined loops names bound here (.call₂ .solve equation unknown mark)
  | derivative {here : Set String} {tree second : Expr} {mark : Mark} :
      Confined loops names bound here tree → tree.size < bound →
        Confined loops names bound here (.call₂ .diff tree second mark)
  | unresolved {here : Set String} {tree second : Expr} {mark : Mark} :
      (∀ name, second.asVar? = some name → tree.resists name = true) →
        Confined loops names bound here (.call₂ .diff tree second mark)

namespace Confined

variable {loops : Bool} {names here : Set String} {bound : Nat}

theorem composed : Composed true (Confined loops names bound here) where
  value isLeaf _ := .leaf isLeaf
  node tree isPlain _ := by
    refine ⟨fun confined => ?_, .plain isPlain⟩
    cases confined with
    | leaf isLeaf => rw [isLeaf_of_isPlain isPlain] at isLeaf; cases isLeaf
    | plain _ children => exact children
    | _ => cases isPlain

theorem mono {wider : Set String} {more : Set String} {larger : Nat}
    (confined : Confined loops names bound here tree) (namesWithin : names ⊆ more)
    (hereWithin : here ⊆ wider) (within : bound ≤ larger) :
    Confined loops more larger wider tree := by
  induction confined generalizing wider with
  | leaf isLeaf => exact .leaf isLeaf
  | plain isPlain _ ih => exact .plain isPlain fun child member => ih child member hereWithin
  | assignment isName isHere _ ih =>
      exact .assignment (namesWithin isName) (hereWithin isHere) (ih hereWithin)
  | misassignment notVar => exact .misassignment notVar
  | whileLoop _ _ testIH bodyIH =>
      exact .whileLoop (fun run => testIH run hereWithin) fun run => bodyIH run hereWithin
  | forLoop _ ih => exact .forLoop fun run part member => ih run part member subset_rfl
  | summation _ _ bodyIH limitIH =>
      exact .summation (fun run => bodyIH run subset_rfl)
        fun run limit member => limitIH run limit member hereWithin
  | solution _ ih => exact .solution (ih subset_rfl)
  | derivative _ smaller ih => exact .derivative (ih hereWithin) (smaller.trans_le within)
  | unresolved resists => exact .unresolved resists

/-- What derivatives in a tree are taken of is smaller than the tree. -/
theorem tighten (confined : Confined loops names bound here tree) :
    Confined loops names tree.size here tree := by
  have grow {tree child : Expr} {here : Set String} (member : child ∈ tree.children)
      (confined : Confined loops names child.size here child) :
      Confined loops names tree.size here child :=
    confined.mono subset_rfl subset_rfl (size_lt_of_mem_children member).le
  induction confined with
  | leaf isLeaf => exact .leaf isLeaf
  | plain isPlain _ ih => exact .plain isPlain fun child member => grow member (ih child member)
  | assignment isName isHere _ ih =>
      exact .assignment isName isHere (grow (by simp [children]) ih)
  | misassignment notVar => exact .misassignment notVar
  | whileLoop _ _ testIH bodyIH =>
      exact .whileLoop (fun run => grow (by simp [children]) (testIH run))
        fun run => grow (by simp [children]) (bodyIH run)
  | forLoop _ ih => exact .forLoop fun run part member => grow member (ih run part member)
  | summation _ _ bodyIH limitIH =>
      refine .summation (fun run => grow (by simp [children]) (bodyIH run)) ?_
      exact fun run limit member => grow (by simp_all [children]) (limitIH run limit member)
  | solution _ ih => exact .solution (grow (by simp [children]) ih)
  | derivative _ _ ih =>
      exact .derivative (grow (by simp [children]) ih)
        (size_lt_of_mem_children (by simp [children]))
  | unresolved resists => exact .unresolved resists

/-- A tree is confined to the names that it assigns. -/
theorem of_assigned (within : tree.size ≤ bound)
    (assigned : ∀ name ∈ tree.assignedNames, name ∈ names)
    (assignedHere : ∀ name ∈ tree.assignedHere, name ∈ here) :
    Confined loops names bound here tree := by
  induction tree using induction_children generalizing here with
  | leaf tree isLeaf => exact .leaf isLeaf
  | node tree inner ih =>
      have below {child : Expr} {here : Set String} (member : child ∈ tree.children)
          (allHere : ∀ name ∈ child.assignedHere, name ∈ here) :
          Confined loops names bound here child :=
        ih child member ((size_lt_of_mem_children member).le.trans within)
          (fun name isAssigned => assigned name (assignedNames_subset member isAssigned)) allHere
      have inside {child : Expr} (member : child ∈ tree.children) :
          Confined loops names bound Set.univ child := below member fun _ _ => trivial
      have beside (closed : tree.opensFrame = false) {child : Expr}
          (member : child ∈ tree.children) : Confined loops names bound here child :=
        below member fun name isAssigned =>
          assignedHere name (assignedHere_subset closed member isAssigned)
      cases tree with
      | whileLoop test body mark =>
          exact .whileLoop (fun _ => beside rfl (by simp [children]))
            fun _ => beside rfl (by simp [children])
      | forLoop start test step body mark => exact .forLoop fun _ part member => inside member
      | summation body index first last mark =>
          rw [assignedHere_summation] at assignedHere
          refine .summation (fun _ => inside (by simp [children])) fun _ limit member => ?_
          refine below (by simp_all [children]) fun name isAssigned => assignedHere name ?_
          rcases List.mem_pair.mp member with rfl | rfl <;> simp [isAssigned]
      | assignment target value mark =>
          cases target with
          | var name inner =>
              exact .assignment (assigned name (by simp [assignedNames, fold]))
                (assignedHere name (by simp [Expr.assignedHere, fold]))
                (beside rfl (by simp [children]))
          | _ => exact .misassignment rfl
      | call₂ function first second mark =>
          have firstMember : first ∈ (Expr.call₂ function first second mark).children := by
            simp [children]
          cases function with
          | max | min => exact .plain rfl fun child member => beside rfl member
          | diff =>
              exact .derivative (beside rfl firstMember)
                ((size_lt_of_mem_children firstMember).trans_le within)
          | solve => exact .solution (inside firstMember)
      | array | unary | arith | relation | connective | call | conditional | pause =>
          exact .plain rfl fun child member => beside rfl member
      | _ => cases inner

theorem unresolvedDerivative_confined (resists : tree.resists name = true) :
    (tree.unresolvedDerivative name).Ensures (Confined loops names bound here) := by
  intro start
  refine .unresolved ?_
  rintro other ⟨⟩
  exact resists

/-! ## Derivatives -/

section Derivatives

variable {derive : Expr → Traced Expr}

/-- The derivative of a sum over another variable than its index. -/
theorem summation_confined {body index first last : Expr} {mark : Mark}
    (derives : ∀ tree, Confined loops names bound Set.univ tree →
      (derive tree).Ensures (fun _ => True) (Confined loops names bound Set.univ))
    (confined : Confined loops names bound here (.summation body index first last mark)) :
    (do make (.summation (← derive body) index first last) : Traced Expr).Ensures (fun _ => True)
      (Confined loops names bound here) := by
  cases confined with
  | leaf isLeaf => cases isLeaf
  | plain isPlain => cases isPlain
  | summation bodyConfined limits =>
      have derived : (derive body).Ensures (fun _ => True) fun derivative =>
          loops = true → Confined loops names bound Set.univ derivative := by
        intro start steps run
        exact derives body (bodyConfined run) start steps
      exact .bind derived fun _ derivative => .make fun _ => .summation derivative limits

theorem differentiateNode_confined
    (derives : ∀ {here : Set String} (tree : Expr), Confined loops names bound here tree →
      (derive tree).Ensures (fun _ => True) (Confined loops names bound here))
    (confined : Confined loops names bound here tree) :
    (differentiateNode derive name tree).Ensures (fun _ => True)
      (Confined loops names bound here) := by
  have mentioned {rule : Traced Expr} {node : Expr}
      (keeps : node.containsVariable name = true →
        rule.Ensures (fun _ => True) (Confined loops names bound here)) :
      (if !node.containsVariable name then pure (.int 0) else rule).Ensures (fun _ => True)
        (Confined loops names bound here) := by
    split
    · exact .pure composed.number
    · rename_i occurs
      exact keeps (by simpa using occurs)
  cases tree with
  | var | number | bool | char | text => exact .pure composed.number
  | error => exact .pure confined
  | array items mark =>
      refine .bind (.forEach fun item member => ?_) fun _ hold =>
        .make fun _ => composed.array.mpr hold
      exact derives item (composed.array.mp confined item member)
  | conditional test consequence alternative mark =>
      have ⟨testConfined, first, second⟩ := composed.conditional.mp confined
      exact .bind (derives _ first) fun _ firstConfined =>
        .bind (derives _ second) fun _ secondConfined =>
          .make fun _ => composed.conditional.mpr ⟨testConfined, firstConfined, secondConfined⟩
  | summation body index first last mark =>
      unfold differentiateNode
      dsimp only
      split
      · exact .ofMarking (unresolvedDerivative_confined (by simpa [resists] using ‹_›))
      · exact summation_confined derives confined
  | whileLoop | forLoop | pause | assignment =>
      exact .ofMarking (unresolvedDerivative_confined rfl)
  | unary op operand mark =>
      cases op with
      | neg =>
          exact mentioned fun _ => .bind (derives _ (composed.unary.mp confined))
            fun _ derivative => composed.neg_keeps derivative
      | not => exact mentioned fun occurs => .ofMarking (unresolvedDerivative_confined occurs)
  | arith op left right mark =>
      have ⟨leftConfined, rightConfined⟩ := composed.arith.mp confined
      exact mentioned fun _ =>
        composed.differentiateArith_keeps derives confined leftConfined rightConfined
  | relation | connective =>
      exact mentioned fun occurs => .ofMarking (unresolvedDerivative_confined occurs)
  | call function argument mark =>
      have argumentConfined := (composed.call (Bool.or_true _)).mp confined
      refine mentioned fun occurs => .bind (derives _ argumentConfined) fun _ inner =>
        composed.chainRule_keeps argumentConfined inner ?_
      rintro (rfl | rfl | rfl | rfl) <;> exact unresolvedDerivative_confined occurs
  | call₂ function first second mark =>
      cases function with
      | max | min =>
          have operands := (composed.node _ rfl rfl).mp confined
          have firstConfined := operands first (by simp [children])
          have secondConfined := operands second (by simp [children])
          exact mentioned fun _ => .bind (derives _ firstConfined) fun _ left =>
            .bind (derives _ secondConfined) fun _ right =>
              .bind (.make fun _ => composed.relation.mpr ⟨firstConfined, secondConfined⟩)
                fun _ test => .make fun _ => composed.conditional.mpr ⟨test, left, right⟩
      | diff | solve =>
          exact mentioned fun occurs => .ofMarking (unresolvedDerivative_confined occurs)

/-- The derivative of a tree assigns where the tree does. -/
theorem differentiate_confined (confined : Confined loops names bound here tree) :
    (tree.differentiate name).Ensures (fun _ => True) (Confined loops names bound here) := by
  unfold differentiate
  generalize depthFor tree.size = depth
  induction depth generalizing here tree with
  | zero => exact .make fun _ => composed.number
  | succ depth ih => exact differentiateNode_confined (fun _ => ih) confined

/-- A derivative that only wraps the tree that it was taken of is one that the tree
resists: every other derivative in it is taken of a smaller tree. -/
theorem of_isUnresolvedDerivativeOf {derivative : Expr}
    (confined : Confined loops names tree.size here derivative)
    (unresolved : isUnresolvedDerivativeOf tree derivative = true) :
    Confined loops ∅ 0 ∅ derivative := by
  unfold isUnresolvedDerivativeOf at unresolved
  split at unresolved
  · cases confined with
    | leaf isLeaf => cases isLeaf
    | plain isPlain => cases isPlain
    | derivative _ smaller => exact absurd (size_eq_of_agree unresolved) smaller.ne
    | unresolved resists => exact .unresolved resists
  · cases unresolved

end Derivatives

end Confined

end Expr

end SymbolicAlgebra
