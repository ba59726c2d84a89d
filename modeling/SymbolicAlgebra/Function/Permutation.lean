/-!
# Permutations

All permutations of `0 .. n - 1` with their signs.  The permutations of one
size arise from those of the size below by inserting the new greatest element
at every position; each element behind it adds one inversion.

The sizes are listed once, in a table that grows as far as somebody asks and is
never rewritten.
-/

namespace SymbolicAlgebra

/-- A permutation as the list of its values, with its sign. -/
structure Permutation where
  indices : List Nat
  sign : Int
deriving DecidableEq, Repr

namespace Permutation

/-- A permutation with a new greatest element inserted at a position. -/
def insertAt (permutation : Permutation) (element position : Nat) : Permutation where
  indices :=
    permutation.indices.take position ++ element :: permutation.indices.drop position
  sign := if (element - position) % 2 = 0 then permutation.sign else -permutation.sign

/-- The permutations of one size more, from those of a size. -/
def extend (previous : List Permutation) (size : Nat) : List Permutation :=
  previous.flatMap fun permutation => (List.range (size + 1)).map (permutation.insertAt size)

/-- All permutations of the given size. -/
def all : Nat → List Permutation
  | 0 => [⟨[], 1⟩]
  | n + 1 => extend (all n) n

/-! ## Growing on demand -/

/-- The permutations of the sizes listed so far; each size is a level. -/
structure Table where
  levels : List (List Permutation)

namespace Table

/-- Only the empty permutation is listed. -/
def initial : Table := ⟨[[⟨[], 1⟩]]⟩

/-- The table with one more level. -/
def grow (table : Table) : Table :=
  ⟨table.levels ++ [extend (table.levels.getLastD []) (table.levels.length - 1)]⟩

@[simp] theorem length_grow (table : Table) :
    table.grow.levels.length = table.levels.length + 1 := by
  simp [grow]

/-- The table with all levels up to the given one. -/
def growTo (table : Table) (size : Nat) : Table :=
  if table.levels.length ≤ size then table.grow.growTo size else table
termination_by size + 1 - table.levels.length

/-- The level of a size, listed now if it was not before. -/
def level (table : Table) (size : Nat) : List Permutation × Table :=
  match table.levels[size]? with
  | some listed => (listed, table)
  | none =>
      let grown := table.growTo size
      (grown.levels.getD size [], grown)

/-- The levels of several sizes, asked for in order. -/
def levelsOf (table : Table) : List Nat → List (List Permutation) × Table
  | [] => ([], table)
  | size :: sizes =>
      let (listed, table) := table.level size
      let (rest, table) := table.levelsOf sizes
      (listed :: rest, table)

end Table

end Permutation

end SymbolicAlgebra
