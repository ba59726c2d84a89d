/-!
# The bounded integer range

Exact numbers are kept in a 64-bit signed range.  Every exact operation checks
its intermediate results against this range, and a computation that leaves it
is continued at a wider tier of the numeric tower.  The integers themselves are
mathematical integers; the range is a predicate on them, so that a successful
check always yields the true value.
-/

namespace SymbolicAlgebra

/-- The least integer of the range. -/
def minInt : Int := -9223372036854775808

/-- The greatest integer of the range. -/
def maxInt : Int := 9223372036854775807

/-- An integer lies in the range between `minInt` and `maxInt`. -/
def InRange (value : Int) : Prop := minInt ≤ value ∧ value ≤ maxInt

instance (value : Int) : Decidable (InRange value) :=
  inferInstanceAs (Decidable (minInt ≤ value ∧ value ≤ maxInt))

/-- The integer itself, provided that it lies in the range. -/
def checked (value : Int) : Option Int :=
  if InRange value then some value else none

theorem checked_eq_some_iff {value result : Int} :
    checked value = some result ↔ InRange value ∧ value = result := by
  unfold checked
  split <;> simp_all

end SymbolicAlgebra
