import SymbolicAlgebra.Proofs.Soundness.Collection

/-!
# The order of terms

The terms of a chain are sorted by their keys.  Comparing keys is a total preorder
of the terms, in which two terms are equal just when they have the same key, so
sorting brings all terms of one key together.  Insertion passes a term over terms
of lesser keys only, so the terms of one key keep the order that they came in.

Together the two leave no choice: one list alone is in order and has the terms of
each key as they came, and every stable way of sorting ends with it.
-/

namespace SymbolicAlgebra

/-! ## Comparing keys -/

namespace TermKey

/-- What orders the keys of one class. -/
def label : TermKey → String
  | var name | text name | function name => name
  | numeric | other => ""

theorem compare_eq_compareLex :
    TermKey.compare =
      compareLex (compareOn rank) fun first second => compareOn label second first := by
  funext first second
  cases first <;> cases second <;> rfl

instance : Std.TransCmp TermKey.compare := by
  rw [compare_eq_compareLex]
  have opposite : Std.TransCmp fun first second => compareOn label second first :=
    Std.TransCmp.opposite
  infer_instance

instance : Std.LawfulEqCmp TermKey.compare where
  eq_of_compare {first second} same := by
    have equal {left right : String} (same : Ord.compare right left = .eq) : left = right :=
      (Std.LawfulEqCmp.eq_of_compare same).symm
    cases first <;> cases second <;> first
      | rfl
      | cases same
      | rw [equal same]

variable {first second third : TermKey}

@[simp] theorem compare_self (key : TermKey) : key.compare key = .eq :=
  Std.ReflCmp.compare_self

theorem compare_swap : second.compare first = (first.compare second).swap :=
  Std.OrientedCmp.eq_swap

theorem compare_isLE_trans (lower : (first.compare second).isLE = true)
    (upper : (second.compare third).isLE = true) : (first.compare third).isLE = true :=
  Std.TransCmp.isLE_trans lower upper

theorem compare_isLE_total (first second : TermKey) :
    ((first.compare second).isLE || (second.compare first).isLE) = true := by
  rw [@compare_swap first second]
  cases first.compare second <;> rfl

theorem compare_eq_iff : first.compare second = .eq ↔ first = second :=
  Std.LawfulEqCmp.compare_eq_iff_eq

theorem eq_of_isLE_isLE (lower : (first.compare second).isLE = true)
    (upper : (second.compare first).isLE = true) : first = second :=
  compare_eq_iff.mp (Std.OrientedCmp.isLE_antisymm lower upper)

/-- What is not less than a greater key is greater. -/
theorem compare_gt_of_isLE (greater : first.compare third = .gt)
    (notLess : (first.compare second).isLE = true) : second.compare third = .gt := by
  rw [compare_swap, Ordering.swap_eq_gt] at greater ⊢
  exact Std.TransCmp.lt_of_lt_of_isLE greater notLess

/-- The first key comes before the second when a collected chain is read. -/
def ReadBefore (first second : TermKey) : Prop := first.compare second = .gt

instance (first second : TermKey) : Decidable (ReadBefore first second) :=
  inferInstanceAs (Decidable (_ = _))

theorem ReadBefore.asymm (before : ReadBefore first second) :
    ¬ReadBefore second first := by
  intro after
  rw [ReadBefore, compare_swap, before] at after
  cases after

end TermKey

/-- The comparison by which the terms of a chain are sorted. -/
abbrev termOrder (chain : Chain) (first second : Expr) : Ordering :=
  (TermKey.of chain first).compare (TermKey.of chain second)

/-- The terms of a list that have a key, as they come. -/
def termsOfKey (chain : Chain) (key : TermKey) (terms : List Expr) : List Expr :=
  terms.filter fun term => TermKey.of chain term = key

variable {chain : Chain} {key : TermKey} {term first second : Expr}
  {terms list other : List Expr}

/-! ## The terms of one key -/

theorem mem_termsOfKey : term ∈ termsOfKey chain key terms ↔
    term ∈ terms ∧ TermKey.of chain term = key := by
  rw [termsOfKey, List.mem_filter, decide_eq_true_iff]

theorem termsOfKey_cons_of_eq (same : TermKey.of chain term = key) :
    termsOfKey chain key (term :: terms) = term :: termsOfKey chain key terms :=
  List.filter_cons_of_pos (decide_eq_true same)

theorem termsOfKey_cons_of_ne (different : TermKey.of chain term ≠ key) :
    termsOfKey chain key (term :: terms) = termsOfKey chain key terms :=
  List.filter_cons_of_neg (by simpa using different)

theorem termsOfKey_eq_nil (others : ∀ term ∈ terms, TermKey.of chain term ≠ key) :
    termsOfKey chain key terms = [] :=
  List.filter_eq_nil_iff.mpr fun term member => by simpa using others term member

theorem termsOfKey_cons_inj :
    termsOfKey chain key (term :: list) = termsOfKey chain key (term :: other) ↔
      termsOfKey chain key list = termsOfKey chain key other := by
  by_cases ofKey : TermKey.of chain term = key
  · rw [termsOfKey_cons_of_eq ofKey, termsOfKey_cons_of_eq ofKey, List.cons_inj_right]
  · rw [termsOfKey_cons_of_ne ofKey, termsOfKey_cons_of_ne ofKey]

/-- Every term has some key. -/
theorem mem_iff_of_termsOfKey_eq
    (same : ∀ key, termsOfKey chain key list = termsOfKey chain key other) :
    term ∈ list ↔ term ∈ other := by
  have ofKey : term ∈ termsOfKey chain (TermKey.of chain term) list ↔
      term ∈ termsOfKey chain (TermKey.of chain term) other := by rw [same]
  simpa [mem_termsOfKey] using ofKey

/-! ## Sorting keeps the terms of one key in place -/

theorem termsOfKey_swap (different : TermKey.of chain first ≠ TermKey.of chain second) :
    termsOfKey chain key (first :: second :: terms) =
      termsOfKey chain key (second :: first :: terms) := by
  by_cases ofKey : TermKey.of chain first = key
  · have other : TermKey.of chain second ≠ key := fun same => different (ofKey.trans same.symm)
    rw [termsOfKey_cons_of_eq ofKey, termsOfKey_cons_of_ne other, termsOfKey_cons_of_ne other,
      termsOfKey_cons_of_eq ofKey]
  · rw [termsOfKey_cons_of_ne ofKey]
    exact termsOfKey_cons_inj.mpr (termsOfKey_cons_of_ne ofKey).symm

theorem termsOfKey_insertTerm :
    termsOfKey chain key (insertTerm chain term terms) = termsOfKey chain key (term :: terms) := by
  induction terms with
  | nil => rfl
  | cons passed rest ih =>
      rw [insertTerm]
      split
      · rename_i passes
        have different : TermKey.of chain passed ≠ TermKey.of chain term := by
          intro same
          rw [same, TermKey.compare_self] at passes
          cases passes
        calc termsOfKey chain key (passed :: insertTerm chain term rest)
            = termsOfKey chain key (passed :: term :: rest) := termsOfKey_cons_inj.mpr ih
          _ = termsOfKey chain key (term :: passed :: rest) := termsOfKey_swap different
      · rfl

theorem termsOfKey_sortTerms :
    termsOfKey chain key (sortTerms chain terms) = termsOfKey chain key terms := by
  induction terms with
  | nil => rfl
  | cons term terms ih => exact termsOfKey_insertTerm.trans (termsOfKey_cons_inj.mpr ih)

/-! ## Lists in order -/

/-- No term comes before one with a lesser key. -/
abbrev InTermOrder (chain : Chain) (terms : List Expr) : Prop :=
  terms.Pairwise fun first second => (termOrder chain first second).isLE = true

theorem insertTerm_sorted (sorted : InTermOrder chain terms) :
    InTermOrder chain (insertTerm chain term terms) := by
  induction terms with
  | nil => exact List.pairwise_singleton _ _
  | cons other rest ih =>
      have ⟨first, others⟩ := List.pairwise_cons.mp sorted
      rw [insertTerm]
      split
      · rename_i after
        refine List.pairwise_cons.mpr ⟨fun next member => ?_, ih others⟩
        rcases List.mem_cons.mp ((insertTerm_perm chain term rest).mem_iff.mp member) with
          rfl | member
        · have less : (TermKey.of chain other).compare (TermKey.of chain next) = .lt :=
            Std.OrientedCmp.lt_of_gt (beq_iff_eq.mp after)
          exact Ordering.isLE_of_eq_lt less
        · exact first next member
      · rename_i notAfter
        have least : (termOrder chain term other).isLE = true := by
          rw [Ordering.isLE_iff_ne_gt]
          simpa using notAfter
        refine List.pairwise_cons.mpr ⟨List.forall_mem_cons.mpr ⟨least, ?_⟩, sorted⟩
        exact fun next member => TermKey.compare_isLE_trans least (first next member)

theorem sortTerms_sorted (chain : Chain) (terms : List Expr) :
    InTermOrder chain (sortTerms chain terms) := by
  induction terms with
  | nil => exact List.Pairwise.nil
  | cons term terms ih => exact insertTerm_sorted ih

/-- In a list in order the terms of a key stand together, behind all lesser and
before all greater ones. -/
theorem exists_split_at_key (sorted : InTermOrder chain list) (key : TermKey) :
    ∃ before after, list = before ++ termsOfKey chain key list ++ after ∧
      (∀ term ∈ before, (TermKey.of chain term).compare key = .lt) ∧
      ∀ term ∈ after, (TermKey.of chain term).compare key = .gt := by
  induction list with
  | nil => exact ⟨[], [], rfl, List.forall_mem_nil _, List.forall_mem_nil _⟩
  | cons first rest ih =>
      have ⟨least, restSorted⟩ := List.pairwise_cons.mp sorted
      obtain ⟨before, after, split, less, greater⟩ := ih restSorted
      cases place : (TermKey.of chain first).compare key with
      | lt =>
          have different : TermKey.of chain first ≠ key :=
            TermKey.compare_eq_iff.not.mp (by simp [place])
          refine ⟨first :: before, after, ?_, List.forall_mem_cons.mpr ⟨place, less⟩, greater⟩
          rw [termsOfKey_cons_of_ne different, List.cons_append, List.cons_append, ← split]
      | eq =>
          obtain rfl := TermKey.compare_eq_iff.mp place
          -- Nothing behind the first term is less, so its key begins the list.
          have nothingBefore : before = [] := by
            refine List.eq_nil_iff_forall_not_mem.mpr fun term member => ?_
            have behind : term ∈ rest := by
              rw [split]
              simp [member]
            have notLess := least term behind
            rw [termOrder, TermKey.compare_swap, less term member] at notLess
            cases notLess
          rw [nothingBefore, List.nil_append] at split
          refine ⟨[], after, ?_, List.forall_mem_nil _, greater⟩
          rw [termsOfKey_cons_of_eq rfl, List.nil_append, List.cons_append, ← split]
      | gt =>
          have allGreater : ∀ term ∈ first :: rest, (TermKey.of chain term).compare key = .gt :=
            List.forall_mem_cons.mpr ⟨place, fun term member =>
              TermKey.compare_gt_of_isLE place (least term member)⟩
          have none : termsOfKey chain key (first :: rest) = [] :=
            termsOfKey_eq_nil fun term member =>
              TermKey.compare_eq_iff.not.mp (by simp [allGreater term member])
          exact ⟨[], first :: rest, by rw [none]; rfl, List.forall_mem_nil _, allGreater⟩

theorem InTermOrder.least (sorted : InTermOrder chain (first :: terms))
    (member : term ∈ first :: terms) : (termOrder chain first term).isLE = true := by
  rcases List.mem_cons.mp member with rfl | later
  · rw [termOrder, TermKey.compare_self]
    rfl
  · exact (List.pairwise_cons.mp sorted).1 term later

/-- A list in order is determined by its terms of each key. -/
theorem InTermOrder.eq_of_termsOfKey_eq (sorted : InTermOrder chain list)
    (otherSorted : InTermOrder chain other)
    (same : ∀ key, termsOfKey chain key list = termsOfKey chain key other) : list = other := by
  induction list generalizing other with
  | nil =>
      refine (List.eq_nil_iff_forall_not_mem.mpr fun term member => ?_).symm
      exact List.not_mem_nil ((mem_iff_of_termsOfKey_eq same).mpr member)
  | cons first rest ih =>
      cases other with
      | nil =>
          exact absurd ((mem_iff_of_termsOfKey_eq same).mp List.mem_cons_self) List.not_mem_nil
      | cons head tail =>
          -- Each of the two first terms is in the other list, so neither has a lesser key.
          have lower := sorted.least ((mem_iff_of_termsOfKey_eq same).mpr List.mem_cons_self)
          have upper := otherSorted.least ((mem_iff_of_termsOfKey_eq same).mp List.mem_cons_self)
          have ofKey := same (TermKey.of chain head)
          rw [termsOfKey_cons_of_eq (TermKey.eq_of_isLE_isLE lower upper),
            termsOfKey_cons_of_eq rfl] at ofKey
          obtain ⟨rfl, -⟩ := List.cons.inj ofKey
          rw [ih sorted.of_cons otherSorted.of_cons fun key => termsOfKey_cons_inj.mp (same key)]

/-- The sorted terms are the only list in order that has the terms of each key as
they come. -/
theorem eq_sortTerms (sorted : InTermOrder chain list)
    (same : ∀ key, termsOfKey chain key list = termsOfKey chain key terms) :
    list = sortTerms chain terms :=
  sorted.eq_of_termsOfKey_eq (sortTerms_sorted chain terms) fun key =>
    (same key).trans termsOfKey_sortTerms.symm

/-- Merging sorted halves leads to the same list as inserting term by term. -/
theorem sortTerms_eq_mergeSort (chain : Chain) (terms : List Expr) :
    sortTerms chain terms =
      terms.mergeSort fun first second => (termOrder chain first second).isLE := by
  have trans (first second third : Expr) (lower : (termOrder chain first second).isLE = true)
      (upper : (termOrder chain second third).isLE = true) :
      (termOrder chain first third).isLE = true :=
    TermKey.compare_isLE_trans lower upper
  have total (first second : Expr) :
      ((termOrder chain first second).isLE || (termOrder chain second first).isLE) = true :=
    TermKey.compare_isLE_total _ _
  refine (eq_sortTerms (List.pairwise_mergeSort trans total terms) fun key => ?_).symm
  have level : InTermOrder chain (termsOfKey chain key terms) := by
    refine List.pairwise_of_forall_mem_list fun first firstMember second secondMember => ?_
    rw [termOrder, (mem_termsOfKey.mp firstMember).2, (mem_termsOfKey.mp secondMember).2,
      TermKey.compare_self]
    rfl
  have kept : (termsOfKey chain key (termsOfKey chain key terms)).Sublist
      (termsOfKey chain key (terms.mergeSort fun first second =>
        (termOrder chain first second).isLE)) :=
    (List.sublist_mergeSort trans total level List.filter_sublist).filter _
  have again : termsOfKey chain key (termsOfKey chain key terms) = termsOfKey chain key terms := by
    simp [termsOfKey]
  rw [again] at kept
  exact (kept.eq_of_length ((List.mergeSort_perm terms _).filter _).length_eq.symm).symm

/-! ## The result -/

/-- Terms are compared by a total preorder, in which they are equal just when their
keys are.  Sorting them rearranges the list so that the terms of each key stand
together, in the order that they came in, between lesser and greater ones. -/
theorem terms_are_sorted_stably_by_total_preorder (chain : Chain) :
    (∀ term, termOrder chain term term = .eq) ∧
    (∀ first second, termOrder chain second first = (termOrder chain first second).swap) ∧
    (∀ first second third, (termOrder chain first second).isLE = true →
      (termOrder chain second third).isLE = true → (termOrder chain first third).isLE = true) ∧
    (∀ first second, termOrder chain first second = .eq ↔
      TermKey.of chain first = TermKey.of chain second) ∧
    ∀ terms, (sortTerms chain terms).Perm terms ∧ ∀ key, ∃ before after,
      sortTerms chain terms = before ++ termsOfKey chain key terms ++ after ∧
        (∀ term ∈ before, (TermKey.of chain term).compare key = .lt) ∧
        ∀ term ∈ after, (TermKey.of chain term).compare key = .gt := by
  refine ⟨?_, ?_, ?_, ?_, ?_⟩
  · exact fun term => TermKey.compare_self _
  · exact fun first second => TermKey.compare_swap
  · exact fun first second third => TermKey.compare_isLE_trans
  · exact fun first second => TermKey.compare_eq_iff
  · refine fun terms => ⟨sortTerms_perm chain terms, fun key => ?_⟩
    have split := exists_split_at_key (sortTerms_sorted chain terms) key
    rwa [termsOfKey_sortTerms] at split

/-- In a sum `5 * x` has the key of `x` and is sorted behind `y` and before `3`, next
to `x`, in the order in which the two came. -/
theorem multiple_is_sorted_beside_its_variable :
    let multiple : Expr := .arith .mul (.int 5) (.var "x")
    (termOrder .additive (.var "y") multiple).isLE = true ∧
      (termOrder .additive multiple (.int 3)).isLE = true ∧
      (termOrder .additive (.var "y") (.int 3)).isLE = true ∧
      ∃ before after, sortTerms .additive [.int 3, multiple, .var "y", .var "x"] =
          before ++ [multiple, .var "x"] ++ after ∧
        (∀ term ∈ before, (TermKey.of .additive term).compare (.var "x") = .lt) ∧
        ∀ term ∈ after, (TermKey.of .additive term).compare (.var "x") = .gt := by
  intro multiple
  obtain ⟨-, -, trans, -, sorts⟩ := terms_are_sorted_stably_by_total_preorder .additive
  have lower : (termOrder .additive (.var "y") multiple).isLE = true := by decide +kernel
  have upper : (termOrder .additive multiple (.int 3)).isLE = true := by decide +kernel
  have ofKey : termsOfKey .additive (.var "x") [.int 3, multiple, .var "y", .var "x"] =
      [multiple, .var "x"] := by
    rfl
  have split := (sorts [.int 3, multiple, .var "y", .var "x"]).2 (.var "x")
  rw [ofKey] at split
  exact ⟨lower, upper, trans _ _ _ lower upper, split⟩

end SymbolicAlgebra
