import Mathlib.LinearAlgebra.Matrix.Determinant.Basic
import SymbolicAlgebra.Function.Catalogue
import SymbolicAlgebra.Proofs.NumericTerms

/-!
# Determinants

The determinant is expanded as the sum of signed products over all permutations.  The
permutations of a size arise by inserting the new greatest element into those of the size
below, which is the expansion along the last column.

The products and their sum are computed number by number, and a number that has been
rounded is never exact again.  So an exact total has come from exact products only, and it
is the determinant of the values of the entries.
-/

namespace SymbolicAlgebra

/-! ## The expansion over permutations -/

namespace Permutation

variable {K : Type} [CommRing K] {size position : ℕ}

/-- There is one index for each row, every index is that of a column, and the sign is a
unit. -/
structure IsOfSize (permutation : Permutation) (size : ℕ) : Prop where
  length : permutation.indices.length = size
  below : ∀ column ∈ permutation.indices, column < size
  sign : permutation.sign = 1 ∨ permutation.sign = -1

theorem IsOfSize.insertAt {permutation : Permutation} (isOfSize : permutation.IsOfSize size)
    (bounded : position ≤ size) : (permutation.insertAt size position).IsOfSize (size + 1) where
  length := by
    have length := isOfSize.length
    simp only [Permutation.insertAt, List.length_append, List.length_take, List.length_cons,
      List.length_drop]
    omega
  below := by
    intro column member
    rw [Permutation.insertAt, List.mem_append, List.mem_cons] at member
    rcases member with before | rfl | behind
    · exact Nat.lt_succ_of_lt (isOfSize.below column (List.mem_of_mem_take before))
    · exact Nat.lt_succ_self _
    · exact Nat.lt_succ_of_lt (isOfSize.below column (List.mem_of_mem_drop behind))
  sign := by
    have sign := isOfSize.sign
    simp only [Permutation.insertAt]
    split <;> omega

theorem isOfSize_of_mem_all : ∀ permutation ∈ all size, permutation.IsOfSize size := by
  induction size with
  | zero =>
      intro permutation member
      obtain rfl := List.mem_singleton.mp member
      exact ⟨rfl, List.forall_mem_nil _, .inl rfl⟩
  | succ size ih =>
      intro permutation member
      obtain ⟨smaller, smallerMember, inserted⟩ := List.mem_flatMap.mp member
      obtain ⟨position, inRange, rfl⟩ := List.mem_map.mp inserted
      exact (ih smaller smallerMember).insertAt (Nat.lt_succ_iff.mp (List.mem_range.mp inRange))

/-- The product of the entries that a permutation selects, one from each row, with its sign. -/
def signedProduct (rows : List (ℕ → K)) (permutation : Permutation) : K :=
  permutation.sign * (List.zipWith (fun row column => row column) rows permutation.indices).prod

/-- The sum of the signed products of some permutations. -/
def expansion (rows : List (ℕ → K)) (permutations : List Permutation) : K :=
  (permutations.map (signedProduct rows)).sum

/-- The row at the position of a new element takes its entry from the new column. -/
theorem prod_zipWith_insert {rows : List (ℕ → K)} {indices : List ℕ} {column : ℕ}
    (length : rows.length = indices.length + 1) (bounded : position ≤ indices.length) :
    (List.zipWith (fun row column => row column) rows
        (indices.take position ++ column :: indices.drop position)).prod =
      rows.getD position 0 column *
        (List.zipWith (fun row column => row column) (rows.eraseIdx position) indices).prod := by
  induction position generalizing rows indices with
  | zero =>
      obtain ⟨row, rows, rfl⟩ := List.exists_cons_of_length_eq_add_one length
      simp
  | succ position ih =>
      obtain ⟨row, rows, rfl⟩ := List.exists_cons_of_length_eq_add_one length
      obtain ⟨index, indices, rfl⟩ := List.exists_cons_of_length_pos (Nat.zero_lt_of_lt bounded)
      have inner := @ih rows indices (by simpa using length) (by simpa using bounded)
      rw [List.take_succ_cons, List.drop_succ_cons, List.cons_append, List.zipWith_cons_cons,
        List.prod_cons, inner, List.getD_cons_succ, List.eraseIdx_cons_succ,
        List.zipWith_cons_cons, List.prod_cons, mul_left_comm]

/-- Every element that the inserted one passes turns the sign. -/
theorem sign_insertAt_eq_pow_sub (permutation : Permutation) :
    ((permutation.insertAt size position).sign : K) =
      (-1) ^ (size - position) * permutation.sign := by
  rw [insertAt]
  split
  · rename_i even
    rw [Even.neg_one_pow (Nat.even_iff.mpr even), one_mul]
  · rename_i odd
    rw [Odd.neg_one_pow (Nat.odd_iff.mpr (Nat.mod_two_ne_zero.mp odd)), Int.cast_neg, neg_one_mul]

theorem sign_insertAt (permutation : Permutation) (bounded : position ≤ size) :
    ((permutation.insertAt size position).sign : K) =
      (-1) ^ (position + size) * permutation.sign := by
  have sum : position + size = size - position + 2 * position := by omega
  rw [sign_insertAt_eq_pow_sub, sum, pow_add, pow_mul, neg_one_sq, one_pow, mul_one]

theorem signedProduct_insertAt {rows : List (ℕ → K)} {permutation : Permutation}
    (length : rows.length = size + 1) (indices : permutation.indices.length = size)
    (bounded : position ≤ size) : signedProduct rows (permutation.insertAt size position) =
      (-1) ^ (position + size) * rows.getD position 0 size *
        signedProduct (rows.eraseIdx position) permutation := by
  rw [signedProduct, sign_insertAt permutation bounded, insertAt,
    prod_zipWith_insert (indices.symm ▸ length) (indices.symm ▸ bounded), signedProduct]
  ring

/-- Inserting a new greatest element at every position expands along the last column. -/
theorem expansion_insertAt {rows : List (ℕ → K)} {permutations : List Permutation}
    (length : rows.length = size + 1)
    (sizes : ∀ permutation ∈ permutations, permutation.IsOfSize size) :
    expansion rows (permutations.flatMap fun permutation =>
        (List.range (size + 1)).map (permutation.insertAt size)) =
      ∑ position : Fin (size + 1), (-1) ^ (position + size : ℕ) * rows.getD position 0 size *
        expansion (rows.eraseIdx position) permutations := by
  induction permutations with
  | nil => simp [expansion]
  | cons permutation permutations ih =>
      rw [List.forall_mem_cons] at sizes
      have inserted : expansion rows ((List.range (size + 1)).map (permutation.insertAt size)) =
          ∑ position : Fin (size + 1), (-1) ^ (position + size : ℕ) * rows.getD position 0 size *
            signedProduct (rows.eraseIdx position) permutation := by
        rw [expansion, List.map_map]
        refine (Finset.sum_range fun position =>
          signedProduct rows (permutation.insertAt size position)).trans ?_
        exact Finset.sum_congr rfl fun position _ =>
          signedProduct_insertAt length sizes.1.length (Nat.lt_succ_iff.mp position.2)
      have split : expansion rows ((permutation :: permutations).flatMap fun permutation =>
          (List.range (size + 1)).map (permutation.insertAt size)) =
          expansion rows ((List.range (size + 1)).map (permutation.insertAt size)) +
            expansion rows (permutations.flatMap fun permutation =>
              (List.range (size + 1)).map (permutation.insertAt size)) := by
        rw [List.flatMap_cons, expansion, List.map_append, List.sum_append]
        rfl
      rw [split, inserted, ih sizes.2, ← Finset.sum_add_distrib]
      refine Finset.sum_congr rfl fun position _ => ?_
      rw [← mul_add]
      rfl

/-- The square matrix with the given rows. -/
def matrix (rows : List (ℕ → K)) (size : ℕ) : Matrix (Fin size) (Fin size) K :=
  .of fun row column => rows.getD row 0 column

/-- A row that is left out moves all later ones up. -/
theorem matrix_eraseIdx (rows : List (ℕ → K)) (position : Fin (size + 1)) :
    (matrix rows (size + 1)).submatrix position.succAbove (Fin.last size).succAbove =
      matrix (rows.eraseIdx position) size := by
  ext row column
  have moved : (rows.eraseIdx position).getD row 0 = rows.getD (position.succAbove row) 0 := by
    rw [List.getD_eq_getElem?_getD, List.getD_eq_getElem?_getD, List.getElem?_eraseIdx,
      Fin.succAbove]
    simp only [Fin.lt_def, Fin.val_castSucc]
    split <;> rfl
  simp only [Matrix.submatrix_apply, matrix, Matrix.of_apply, moved, Fin.succAbove_last,
    Fin.val_castSucc]

/-- The expansion over all permutations is the determinant. -/
theorem expansion_eq_det {rows : List (ℕ → K)} (length : rows.length = size) :
    expansion rows (all size) = (matrix rows size).det := by
  induction size generalizing rows with
  | zero =>
      obtain rfl := List.eq_nil_of_length_eq_zero length
      simp [expansion, all, signedProduct]
  | succ size ih =>
      rw [all, extend, expansion_insertAt length isOfSize_of_mem_all,
        Matrix.det_succ_column _ (Fin.last size)]
      refine Finset.sum_congr rfl fun position _ => ?_
      have shorter : (rows.eraseIdx position).length = size := by
        rw [List.length_eraseIdx_of_lt (by omega)]
        omega
      rw [matrix_eraseIdx, ih shorter]
      rfl

end Permutation

/-! ## Numbers along a computation -/

namespace Number

/-- If the number is exact, then it has this value and its integers are in range. -/
def Follows (number : Number) (value : GaussianRational) : Prop :=
  number.isExact = true → number.Bounded ∧ number.value? = some value

theorem TierOperation.Computes.run_of_follows {operation : TierOperation}
    {result : GaussianRational → GaussianRational → GaussianRational}
    (computes : operation.Computes result) {left right : Number} {z w : GaussianRational}
    (leftFollows : left.Follows z) (rightFollows : right.Follows w)
    (exact : (operation.run left right).isExact = true) :
    (operation.run left right).Represents (result z w) := by
  obtain ⟨leftExact, rightExact⟩ := computes.operands_isExact exact
  obtain ⟨leftBounded, leftValue⟩ := leftFollows leftExact
  obtain ⟨rightBounded, rightValue⟩ := rightFollows rightExact
  obtain ⟨first, second, firstValue, secondValue, represents⟩ := computes.run_represents exact
  obtain rfl := Option.some.inj (leftValue.symm.trans firstValue)
  obtain rfl := Option.some.inj (rightValue.symm.trans secondValue)
  exact represents leftBounded rightBounded

end Number

namespace Expr

/-- The leaf of an exact number of this value, in normal form or not. -/
def IsEntryOf (value : GaussianRational) (tree : Expr) : Prop :=
  ∃ number mark, tree = .number number mark ∧ number.Bounded ∧ number.value? = some value

/-- A number that is the normal form of this value, if it is exact. -/
def Tracks (value : GaussianRational) (tree : Expr) : Prop :=
  ∃ number mark, tree = .number number mark ∧
    (number.isExact = true → number.Represents value)

end Expr

section Expansion

open SymbolicAlgebra.Expr Permutation

variable {allowed : Step → Prop} {left right : Expr} {z w : GaussianRational}

theorem Expr.Tracks.follows (tracks : left.Tracks z) :
    ∃ number mark, left = .number number mark ∧ number.Follows z := by
  obtain ⟨number, mark, rfl, represents⟩ := tracks
  exact ⟨number, mark, rfl, fun exact => ⟨(represents exact).1.bounded, (represents exact).2⟩⟩

theorem Expr.IsEntryOf.follows (entry : left.IsEntryOf z) :
    ∃ number mark, left = .number number mark ∧ number.Follows z := by
  obtain ⟨number, mark, rfl, bounded, denotes⟩ := entry
  exact ⟨number, mark, rfl, fun _ => ⟨bounded, denotes⟩⟩

theorem arithmetic_tracks (chain : Chain)
    (leftFollows : ∃ number mark, left = .number number mark ∧ number.Follows z)
    (rightFollows : ∃ number mark, right = .number number mark ∧ number.Follows w) :
    (arithmetic chain.op left right).Ensures allowed (·.Tracks (chain.join z w)) := by
  obtain ⟨x, inner, rfl, xFollows⟩ := leftFollows
  obtain ⟨y, outer, rfl, yFollows⟩ := rightFollows
  refine (arithmetic_numbers chain.op x y inner outer).mono ?_
  rintro _ ⟨number, mark, rfl, computed⟩
  refine ⟨number, mark, rfl, fun exact => ?_⟩
  obtain rfl := computed exact
  cases chain with
  | additive => exact Number.addition_computes.run_of_follows xFollows yFollows exact
  | multiplicative => exact Number.multiplication_computes.run_of_follows xFollows yFollows exact

/-- The entries of rows of trees have the values of rows of values. -/
def HaveValues (size : ℕ) : List (List Expr) → List (ℕ → GaussianRational) → Prop :=
  List.Forall₂ fun cells row => ∀ column < size, (cells.getD column (.int 0)).IsEntryOf (row column)

variable {size : ℕ} {rows : List (List Expr)} {values : List (ℕ → GaussianRational)}

theorem multiplyEntries_tracks (hold : HaveValues size rows values) {columns : List ℕ}
    (bounded : ∀ column ∈ columns, column < size) {product : Expr} (tracks : product.Tracks z) :
    (multiplyEntries product (rows.zip columns)).Ensures allowed
      (·.Tracks (z * (List.zipWith (fun row column => row column) values columns).prod)) := by
  induction hold generalizing columns product z with
  | nil => exact .pure (by simpa using tracks)
  | @cons cells row rows values entries _ ih =>
      cases columns with
      | nil => exact .pure (by simpa using tracks)
      | cons column columns =>
          rw [List.forall_mem_cons] at bounded
          rw [List.zipWith_cons_cons, List.prod_cons, ← mul_assoc]
          exact .bind (arithmetic_tracks .multiplicative tracks.follows
            (entries column bounded.1).follows) fun _ next => ih bounded.2 next

theorem addProducts_tracks (hold : HaveValues size rows values) {permutations : List Permutation}
    (sizes : ∀ permutation ∈ permutations, permutation.IsOfSize size)
    {total : Expr} (tracks : total.Tracks z) :
    (addProducts rows total permutations).Ensures allowed
      (·.Tracks (z + expansion values permutations)) := by
  induction permutations generalizing total z with
  | nil => exact .pure (by simpa [expansion] using tracks)
  | cons permutation permutations ih =>
      rw [List.forall_mem_cons] at sizes
      have inRange : InRange permutation.sign := by
        rcases sizes.1.sign with one | minusOne
        · rw [one]
          decide
        · rw [minusOne]
          decide
      have sign : (Expr.int permutation.sign).Tracks permutation.sign :=
        ⟨_, _, rfl, fun _ => ⟨inRange, rfl⟩⟩
      rw [expansion, List.map_cons, List.sum_cons, ← add_assoc]
      exact .bind (multiplyEntries_tracks hold sizes.1.below sign) fun _ product =>
        .bind (arithmetic_tracks .additive tracks.follows product.follows) fun _ next =>
          ih sizes.2 next

/-- The rows of an array of arrays of one length. -/
theorem squareRows?_ofFn {count : ℕ} {cells : Fin count → List Expr} (marks : Fin count → Mark)
    (lengths : ∀ row, (cells row).length = size) :
    squareRows? size (List.ofFn fun row => .array (cells row) (marks row)) =
      some (List.ofFn cells) := by
  induction count with
  | zero => rfl
  | succ count ih =>
      rw [List.ofFn_succ, squareRows?, if_pos (lengths 0), ih _ fun row => lengths row.succ,
        List.ofFn_succ]
      rfl

/-- A square array of arrays of entries. -/
def ofEntries (entries : Matrix (Fin size) (Fin size) Expr) (marks : Fin size → Mark)
    (mark : Mark) : Expr :=
  .array (List.ofFn fun row => .array (List.ofFn (entries row)) (marks row)) mark

theorem apply_det_ofEntries (small : size ≤ maxDeterminantSize)
    (entries : Matrix (Fin size) (Fin size) Expr) (marks : Fin size → Mark) (mark : Mark) :
    Function.apply (.unary .det) [ofEntries entries marks mark] =
      addProducts (List.ofFn fun row => List.ofFn (entries row)) (.int 0) (all size) := by
  have rows : squareRows? size (List.ofFn fun row => .array (List.ofFn (entries row)) (marks row)) =
      some (List.ofFn fun row => List.ofFn (entries row)) :=
    squareRows?_ofFn marks fun _ => List.length_ofFn
  have applied : Function.apply (.unary .det) [ofEntries entries marks mark] =
      determinant (ofEntries entries marks mark) := rfl
  rw [applied, determinant]
  simp only [ofEntries, asArray?, List.length_ofFn, if_neg (not_lt.mpr small), rows]

/-- The values of a row, and zero behind them. -/
def rowValues (values : Matrix (Fin size) (Fin size) GaussianRational) (row : Fin size)
    (column : ℕ) : GaussianRational :=
  if inside : column < size then values row ⟨column, inside⟩ else 0

theorem matrix_rowValues (values : Matrix (Fin size) (Fin size) GaussianRational) :
    matrix (List.ofFn (rowValues values)) size = values := by
  refine Matrix.ext fun row column => ?_
  simp [matrix, rowValues]

theorem haveValues_ofFn {entries : Matrix (Fin size) (Fin size) Expr}
    {values : Matrix (Fin size) (Fin size) GaussianRational}
    (hold : ∀ row column, (entries row column).IsEntryOf (values row column)) :
    HaveValues size (List.ofFn fun row => List.ofFn (entries row))
      (List.ofFn (rowValues values)) := by
  refine List.forall₂_iff_get.mpr ⟨by simp, fun index inside _ column below => ?_⟩
  have row : index < size := by simpa using inside
  have entry := hold ⟨index, row⟩ ⟨column, below⟩
  simpa [rowValues, below] using entry

/-- The determinant of a square array of exact numbers is a number, and if it is exact then
it is the determinant of their values. -/
theorem exact_determinant_eq_det (small : size ≤ maxDeterminantSize)
    {entries : Matrix (Fin size) (Fin size) Expr}
    {values : Matrix (Fin size) (Fin size) GaussianRational}
    (hold : ∀ row column, (entries row column).IsEntryOf (values row column))
    (marks : Fin size → Mark) (mark : Mark) (start : ℕ) : ∃ number leafMark,
      (Function.apply (.unary .det) [ofEntries entries marks mark]).value start =
        .number number leafMark ∧
      (number.isExact = true → number.Represents values.det) := by
  have zero : (Expr.int 0).Tracks 0 := ⟨_, _, rfl, fun _ => ⟨inRange_zero, rfl⟩⟩
  have tracks : (addProducts (List.ofFn fun row => List.ofFn (entries row)) (.int 0)
      (all size)).Ensures (fun _ => True) _ :=
    addProducts_tracks (haveValues_ofFn hold) isOfSize_of_mem_all zero
  rw [apply_det_ofEntries small]
  have result := tracks start fun _ _ => trivial
  rwa [zero_add, expansion_eq_det List.length_ofFn, matrix_rowValues] at result

/-- The determinant with rows `i`, `1/2` and `3`, `2 + i` is `-5/2 + 2 * i`. -/
theorem complex_determinant_eq_det :
    let entries : Matrix (Fin 2) (Fin 2) Expr := fun row column =>
      .number (![![.complexInt ⟨0, 1⟩, .rational (1 / 2)],
        ![.int 3, .complexInt ⟨2, 1⟩]] row column)
    ∃ number mark, (Function.apply (.unary .det)
        [ofEntries entries (fun _ => .unset) .unset]).value 0 = .number number mark ∧
      number.Represents ⟨-5 / 2, 2⟩ := by
  intro entries
  let values : Matrix (Fin 2) (Fin 2) GaussianRational := !![⟨0, 1⟩, ⟨1 / 2, 0⟩; ⟨3, 0⟩, ⟨2, 1⟩]
  have hold : ∀ row column, (entries row column).IsEntryOf (values row column) := by
    have unit : InRange 0 ∧ InRange 1 := by decide
    have half : Ratio.InRange (1 / 2) := by decide +kernel
    have three : InRange 3 := by decide
    have shifted : InRange 2 ∧ InRange 1 := by decide
    exact Fin.forall_fin_two.mpr
      ⟨Fin.forall_fin_two.mpr ⟨⟨_, _, rfl, unit, rfl⟩, ⟨_, _, rfl, half, rfl⟩⟩,
        Fin.forall_fin_two.mpr ⟨⟨_, _, rfl, three, rfl⟩, ⟨_, _, rfl, shifted, rfl⟩⟩⟩
  have total : values.det = ⟨-5 / 2, 2⟩ := by decide +kernel
  have stays : ((Function.apply (.unary .det)
      [ofEntries entries (fun _ => .unset) .unset]).value 0).asNumber?.all Number.isExact =
        true := by
    decide +kernel
  obtain ⟨number, mark, result, exact⟩ :=
    exact_determinant_eq_det (by decide) hold (fun _ => .unset) .unset 0
  rw [result] at stays
  exact ⟨number, mark, result, total ▸ exact stays⟩

end Expansion

end SymbolicAlgebra
