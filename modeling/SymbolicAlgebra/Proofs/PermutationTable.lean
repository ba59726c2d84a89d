import Mathlib.Data.List.FinRange
import Mathlib.Data.List.Permutation
import SymbolicAlgebra.Proofs.Determinant

/-!
# The table of permutations

A size is listed by inserting its greatest element into every permutation of the size below,
at every position.  The insertion can be undone, as the greatest element shows where it
stands, so every permutation has one origin and is listed once.  What stands behind the
inserted element is smaller, and each of it adds one inversion: this is the parity that the
sign records.

The table lists the sizes without a gap.  It only ever grows, so a size that is asked for
again is found as it was listed the first time.
-/

namespace SymbolicAlgebra

namespace Permutation

open Nat

variable {size position : ℕ}

/-! ## Inversions -/

/-- How many pairs of a list stand with the greater element first. -/
def inversions : List ℕ → ℕ
  | [] => 0
  | first :: rest => rest.countP (· < first) + inversions rest

/-- A new greatest element has an inversion with each element behind it, and no other. -/
theorem inversions_insert {indices : List ℕ} (below : ∀ index ∈ indices, index < size)
    (bounded : position ≤ indices.length) :
    inversions (indices.take position ++ size :: indices.drop position) =
      inversions indices + (indices.length - position) := by
  induction position generalizing indices with
  | zero =>
      have behind : indices.countP (· < size) = indices.length :=
        List.countP_eq_length.mpr fun index member => decide_eq_true (below index member)
      rw [List.take_zero, List.drop_zero, List.nil_append, inversions, behind, Nat.sub_zero,
        Nat.add_comm]
  | succ position ih =>
      obtain ⟨first, rest, rfl⟩ := List.exists_cons_of_length_pos (Nat.zero_lt_of_lt bounded)
      rw [List.forall_mem_cons] at below
      have smaller : ¬ size < first := below.1.asymm
      have passed : (rest.take position ++ size :: rest.drop position).countP (· < first) =
          rest.countP (· < first) := by
        rw [List.countP_append, List.countP_cons_of_neg (by simpa using smaller),
          ← List.countP_append, List.take_append_drop]
      rw [List.take_succ_cons, List.drop_succ_cons, List.cons_append, inversions, passed,
        ih below.2 (Nat.le_of_succ_le_succ bounded), inversions, List.length_cons,
        Nat.add_sub_add_right, Nat.add_assoc]

/-- The sign of a listed permutation is the parity of its inversions. -/
theorem sign_of_mem_all :
    ∀ permutation ∈ all size, permutation.sign = (-1) ^ inversions permutation.indices := by
  induction size with
  | zero =>
      intro permutation member
      obtain rfl := List.mem_singleton.mp member
      rfl
  | succ size ih =>
      intro permutation member
      obtain ⟨smaller, smallerMember, inserted⟩ := List.mem_flatMap.mp member
      obtain ⟨position, inRange, rfl⟩ := List.mem_map.mp inserted
      have isOfSize := isOfSize_of_mem_all smaller smallerMember
      have bounded : position ≤ smaller.indices.length :=
        isOfSize.length.symm ▸ Nat.lt_succ_iff.mp (List.mem_range.mp inRange)
      have turned := @sign_insertAt_eq_pow_sub ℤ _ size position smaller
      rw [Int.cast_id, Int.cast_id, ih smaller smallerMember] at turned
      rw [turned, insertAt, inversions_insert isOfSize.below bounded, isOfSize.length, pow_add,
        mul_comm]

/-! ## Each permutation once -/

theorem length_all : (all size).length = size ! := by
  induction size with
  | zero => rfl
  | succ size ih =>
      simp only [all, extend, List.length_flatMap, List.length_map, List.length_range,
        List.map_const', List.sum_replicate, smul_eq_mul, ih, Nat.factorial_succ, Nat.mul_comm]

theorem perm_range_of_mem_all :
    ∀ permutation ∈ all size, permutation.indices.Perm (List.range size) := by
  induction size with
  | zero =>
      intro permutation member
      obtain rfl := List.mem_singleton.mp member
      exact .nil
  | succ size ih =>
      intro permutation member
      obtain ⟨smaller, smallerMember, inserted⟩ := List.mem_flatMap.mp member
      obtain ⟨position, -, rfl⟩ := List.mem_map.mp inserted
      have joined : (smaller.insertAt size position).indices.Perm (size :: smaller.indices) := by
        have moved := @List.perm_middle _ size (smaller.indices.take position)
          (smaller.indices.drop position)
        rwa [List.take_append_drop] at moved
      rw [List.range_succ]
      exact joined.trans (((ih smaller smallerMember).cons size).trans
        (List.perm_append_singleton size (List.range size)).symm)

/-- Every order of the indices has come about by the insertion of the greatest one where it
stands. -/
theorem mem_indices_all {indices : List ℕ} (order : indices.Perm (List.range size)) :
    indices ∈ (all size).map Permutation.indices := by
  induction size generalizing indices with
  | zero =>
      obtain rfl := order.eq_nil
      exact List.mem_singleton_self _
  | succ size ih =>
      rw [List.range_succ] at order
      obtain ⟨before, behind, rfl⟩ := List.append_of_mem
        (order.symm.subset (List.mem_append_right _ (List.mem_singleton_self size)))
      have rest : (before ++ behind).Perm (List.range size) :=
        (List.perm_middle.symm.trans
          (order.trans (List.perm_append_singleton size (List.range size)))).cons_inv
      obtain ⟨smaller, smallerMember, joined⟩ := List.mem_map.mp (ih rest)
      have bounded : before.length < size + 1 := by
        have length := rest.length_eq
        rw [List.length_append, List.length_range] at length
        omega
      refine List.mem_map.mpr ⟨smaller.insertAt size before.length, List.mem_flatMap.mpr
        ⟨smaller, smallerMember, List.mem_map_of_mem (List.mem_range.mpr bounded)⟩, ?_⟩
      rw [insertAt, joined, List.take_left, List.drop_left]

/-- There are as many entries as orders, and every order is among them. -/
theorem indices_all_perm_permutations :
    ((all size).map Permutation.indices).Perm (List.range size).permutations := by
  have covered : (List.range size).permutations ⊆ (all size).map Permutation.indices :=
    fun _ order => mem_indices_all (List.mem_permutations.mp order)
  have distinct := List.nodup_permutations _ (List.nodup_range (n := size))
  refine ((distinct.subperm covered).perm_of_length_le ?_).symm
  rw [List.length_map, length_all, List.length_permutations, List.length_range]

theorem nodup_indices_all : ((all size).map Permutation.indices).Nodup :=
  indices_all_perm_permutations.nodup_iff.mpr (List.nodup_permutations _ List.nodup_range)

/-! ## Entries as bijections -/

/-- The values of a bijection of the indices, in order. -/
def word (bijection : Equiv.Perm (Fin size)) : List ℕ :=
  List.ofFn fun index => (bijection index : ℕ)

theorem word_perm_range (bijection : Equiv.Perm (Fin size)) :
    (word bijection).Perm (List.range size) := by
  have mapped : word bijection = ((List.finRange size).map bijection).map Fin.val := by
    rw [word, List.map_map, List.ofFn_eq_map]
    rfl
  rw [mapped, ← List.map_coe_finRange_eq_range]
  exact (Equiv.Perm.map_finRange_perm bijection).map Fin.val

theorem exists_word_of_perm_range {indices : List ℕ} (order : indices.Perm (List.range size)) :
    ∃ bijection : Equiv.Perm (Fin size), indices = word bijection := by
  have length : indices.length = size := by rw [order.length_eq, List.length_range]
  have distinct : indices.Nodup := order.nodup_iff.mpr List.nodup_range
  let values (index : Fin size) : Fin size :=
    ⟨indices.get (index.cast length.symm),
      List.mem_range.mp (order.subset (List.get_mem indices _))⟩
  have injective : Function.Injective values := fun first second same =>
    Fin.cast_injective length.symm
      (List.nodup_iff_injective_get.mp distinct (congrArg Fin.val same))
  refine ⟨Equiv.ofBijective values (Finite.injective_iff_bijective.mp injective), ?_⟩
  refine List.ext_get (by rw [word, List.length_ofFn, length]) fun index _ _ => ?_
  simp [word, values]

/-! ## The table -/

namespace Table

theorem length_le_growTo (table : Table) :
    table.levels.length ≤ (table.growTo size).levels.length := by
  fun_induction Table.growTo table size with
  | case1 table short ih => exact (Nat.le_succ _).trans (table.length_grow.ge.trans ih)
  | case2 table long => exact le_rfl

theorem length_le_level (table : Table) (size : ℕ) :
    table.levels.length ≤ (table.level size).2.levels.length := by
  rw [Table.level]
  split
  · exact le_rfl
  · exact table.length_le_growTo

/-- Levels are never taken from the table. -/
theorem length_le_levelsOf (table : Table) (sizes : List ℕ) :
    table.levels.length ≤ (table.levelsOf sizes).2.levels.length := by
  induction sizes generalizing table with
  | nil => exact le_rfl
  | cons size sizes ih => exact (table.length_le_level size).trans (ih _)

/-- The sizes are listed from zero on, without a gap. -/
structure IsListing (table : Table) : Prop where
  nonempty : table.levels ≠ []
  levels : table.levels = (List.range table.levels.length).map all

variable {table : Table}

theorem isListing_initial : initial.IsListing := ⟨List.cons_ne_nil _ _, rfl⟩

namespace IsListing

theorem getElem? (listing : table.IsListing) (listed : size < table.levels.length) :
    table.levels[size]? = some (all size) := by
  rw [listing.levels, List.getElem?_map, List.getElem?_range listed]
  rfl

theorem grow (listing : table.IsListing) : table.grow.IsListing := by
  obtain ⟨last, count⟩ := Nat.exists_eq_add_one_of_ne_zero
    (List.length_pos_iff.mpr listing.nonempty).ne'
  have greatest : table.levels.getLastD [] = all last := by
    rw [List.getLastD_eq_getLast?, List.getLast?_eq_getElem?, count, Nat.add_sub_cancel,
      listing.getElem? (by omega), Option.getD_some]
  refine ⟨by simp [Table.grow], ?_⟩
  rw [length_grow, List.range_succ, List.map_append, ← listing.levels, Table.grow, greatest, count,
    Nat.add_sub_cancel]
  rfl

theorem growTo (listing : table.IsListing) (size : ℕ) :
    (table.growTo size).IsListing ∧ size < (table.growTo size).levels.length := by
  fun_induction Table.growTo table size with
  | case1 table short ih => exact ih listing.grow
  | case2 table long => exact ⟨listing, Nat.lt_of_not_le long⟩

/-- A call answers with all permutations of its size, whatever has been listed before. -/
theorem level (listing : table.IsListing) (size : ℕ) :
    (table.level size).1 = all size ∧ (table.level size).2.IsListing ∧
      size < (table.level size).2.levels.length := by
  rw [Table.level]
  split
  · rename_i listed found
    have inside := (List.getElem?_eq_some_iff.mp found).1
    exact ⟨Option.some.inj (found.symm.trans (listing.getElem? inside)), listing, inside⟩
  · obtain ⟨grown, inside⟩ := listing.growTo size
    refine ⟨?_, grown, inside⟩
    change (table.growTo size).levels.getD size [] = all size
    rw [List.getD_eq_getElem?_getD, grown.getElem? inside, Option.getD_some]

theorem levelsOf (listing : table.IsListing) (sizes : List ℕ) :
    (table.levelsOf sizes).1 = sizes.map all ∧ (table.levelsOf sizes).2.IsListing := by
  induction sizes generalizing table with
  | nil => exact ⟨rfl, listing⟩
  | cons size sizes ih =>
      obtain ⟨answer, next, -⟩ := listing.level size
      obtain ⟨answers, last⟩ := ih next
      exact ⟨congrArg₂ List.cons answer answers, last⟩

end IsListing

/-- A call of any size after any calls lists the `size !` permutations of that size.  Each is
a bijection, every bijection stands there once, and the sign is the parity of the inversions.
Wherever the size is asked for in a sequence of calls the answer is the same, and once it has
been given it stays in the table. -/
theorem level_lists_each_permutation_once (earlier : List ℕ) (size : ℕ) :
    let table := (initial.levelsOf earlier).2
    let listed := (table.level size).1
    listed.length = size ! ∧ listed.Nodup ∧
      (∀ permutation ∈ listed,
        (∃ bijection : Equiv.Perm (Fin size), permutation.indices = word bijection) ∧
          permutation.sign = (-1) ^ inversions permutation.indices) ∧
      (∀ bijection : Equiv.Perm (Fin size),
        (listed.map Permutation.indices).count (word bijection) = 1) ∧
      (∀ (calls : List ℕ) (place : ℕ), calls[place]? = some size →
        (initial.levelsOf calls).1[place]? = some listed) ∧
      ∀ later : List ℕ, ((table.level size).2.levelsOf later).2.levels[size]? = some listed := by
  intro table listed
  have listing : table.IsListing := (isListing_initial.levelsOf earlier).2
  obtain ⟨answer, next, inside⟩ := listing.level size
  have complete : listed = all size := answer
  rw [complete]
  refine ⟨length_all, nodup_indices_all.of_map _, fun permutation member => ?_,
    fun bijection => ?_, fun calls place asked => ?_, fun later => ?_⟩
  · exact ⟨exists_word_of_perm_range (perm_range_of_mem_all permutation member),
      sign_of_mem_all permutation member⟩
  · exact List.count_eq_one_of_mem nodup_indices_all (mem_indices_all (word_perm_range bijection))
  · rw [(isListing_initial.levelsOf calls).1, List.getElem?_map, asked, Option.map_some]
  · exact (next.levelsOf later).2.getElem? (inside.trans_le (length_le_levelsOf _ later))

/-- After size three, the six permutations of size three are found in the table. -/
example : ((initial.levelsOf [3]).2.level 3).1.map (fun listed => (listed.indices, listed.sign)) =
    [([2, 1, 0], -1), ([1, 2, 0], 1), ([1, 0, 2], -1), ([2, 0, 1], 1), ([0, 2, 1], -1),
      ([0, 1, 2], 1)] := by
  cbv

end Table

end Permutation

end SymbolicAlgebra
