/-!
# Marks of nodes

Two subtrees that look alike may be two nodes, or one node that is held in two
places.  Marks tell which: a node is given a mark of its own when it is made,
and all places that hold the node show the same mark.  Marks are numbers that
are given out one after the other.
-/

namespace SymbolicAlgebra

/-- What tells a node from others that look like it. -/
inductive Mark where
  /-- Nothing, as long as the node is still being made. -/
  | unset
  /-- A number that no other node has. -/
  | made (number : Nat)
  /-- The leaf of an integer that all trees share. -/
  | integer (value : Int)
  /-- The leaf of a factorial that all trees share. -/
  | factorial (argument : Nat)
  /-- The node of another mark, made anew when the node of the first mark took
  the place of a subtree. -/
  | remade (cause mark : Mark)
deriving DecidableEq

namespace Mark

/-- The mark of a node that is still being made. -/
@[irreducible] def initial : Mark := .unset

/-- The mark of a node that is made anew, once for each cause.  A node that bears
no mark is given none. -/
def renewed (mark cause : Mark) : Mark :=
  if mark = .unset then .unset else .remade cause mark

/-- The marks are those of one node. -/
def agrees (left right : Mark) : Bool := left ≠ .unset && left = right

end Mark

/-- A computation that gives out marks.  Its state is the first number that has
not been given out. -/
abbrev Marking := StateM Nat

namespace Marking

/-- A mark that has not been given out. -/
def next : Marking Mark := modifyGet fun number => (.made number, number + 1)

/-- The results of some computations, from left to right. -/
def all {Result : Type} : List (Marking Result) → Marking (List Result)
  | [] => pure []
  | compute :: rest => do
      let result ← compute
      let results ← all rest
      pure (result :: results)

end Marking

end SymbolicAlgebra
