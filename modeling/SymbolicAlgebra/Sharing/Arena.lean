import SymbolicAlgebra.Expr.Build
import SymbolicAlgebra.Expr.Make

/-!
# The arena of the nodes of a tree

A tree is laid out in an arena of wrappers, one for each node, children before
their parents.  A wrapper knows the wrappers of the children, its own place in the
parent, how many places refer to it, and its depth.  Wrappers of equal depth are
kept together.

Equal nodes are found from the leaves upwards.  The place that holds the later of
two equal wrappers is redirected to the earlier one, so that wrappers of greater
depth are equal when their heads are and their places hold the same wrappers.
From the arena the tree is built again, with a replacement for one of the
wrappers; each wrapper is built only once.
-/

namespace SymbolicAlgebra

/-- A node of a tree, among the others. -/
structure Wrapper where
  node : Expr
  /-- The wrappers of the children. -/
  children : List Nat
  /-- The wrapper of the parent, and which of its children this is. -/
  parent : Option (Nat × Nat)
  references : Nat
  depth : Nat

/-- The nodes of a tree. -/
structure Arena where
  wrappers : Array Wrapper
  /-- The wrappers of each depth. -/
  buckets : List (List Nat)

/-- All pairs of an item and a later one, in order. -/
def pairs {Item : Type} : List Item → List (Item × Item)
  | [] => []
  | item :: items => items.map (item, ·) ++ pairs items

namespace Arena

/-- An arena without nodes. -/
def empty : Arena := ⟨#[], []⟩

def size (arena : Arena) : Nat := arena.wrappers.size

/-- The wrapper at an index.  All indices in use are those of wrappers. -/
def wrapper (arena : Arena) (index : Nat) : Wrapper :=
  arena.wrappers.getD index ⟨.array [], [], none, 0, 0⟩

/-- The arena with another wrapper at an index. -/
def change (arena : Arena) (index : Nat) (update : Wrapper → Wrapper) : Arena :=
  { arena with wrappers := arena.wrappers.modify index update }

/-! ## Laying out a tree -/

/-- The places of a parent are made known to the wrappers that stand there. -/
def adopt (arena : Arena) (parent : Nat) (children : List Nat) : Arena :=
  children.zipIdx.foldl (fun arena place =>
    arena.change place.1 fun wrapper => { wrapper with parent := some (parent, place.2) }) arena

/-- A new wrapper, over those of the children. -/
def add (node : Expr) (children : List Nat) : StateM Arena Nat := modifyGet fun arena =>
  let depth := (children.map fun child => (arena.wrapper child).depth + 1).foldr max 0
  let index := arena.size
  let buckets := arena.buckets ++ List.replicate (depth + 1 - arena.buckets.length) []
  (index, ⟨(arena.adopt index children).wrappers.push ⟨node, children, none, 1, depth⟩,
    buckets.modify depth (· ++ [index])⟩)

/-- The nodes of a tree are added, children first. -/
def insert : Expr → StateM Arena Nat :=
  Expr.fold (fun leaf => add leaf []) fun node parts => do add node (← parts.mapM id)

/-! ## Merging equal nodes -/

/-- Leaves are compared fully, inner nodes by their heads and the wrappers in
their places. -/
def equal (arena : Arena) (first second : Nat) : Bool :=
  let left := arena.wrapper first
  let right := arena.wrapper second
  if left.node.isLeaf || right.node.isLeaf then left.node == right.node
  else left.node.sameHead right.node && left.children == right.children

/-- Something refers to the wrapper. -/
def isAlive (arena : Arena) (index : Nat) : Bool := 0 < (arena.wrapper index).references

/-- A place, if there is one, is given to a wrapper. -/
def redirect (arena : Arena) (place : Option (Nat × Nat)) (child : Nat) : Arena :=
  match place with
  | some (parent, slot) =>
      arena.change parent fun wrapper =>
        { wrapper with children := wrapper.children.set slot child }
  | none => arena

/-- The place of a wrapper is given to an equal one that comes earlier. -/
def merge (arena : Arena) (earlier later : Nat) : Arena :=
  if arena.isAlive earlier && arena.isAlive later && arena.equal earlier later then
    ((arena.redirect (arena.wrapper later).parent earlier).change earlier fun wrapper =>
      { wrapper with references := wrapper.references + 1 }).change later fun wrapper =>
        { wrapper with references := wrapper.references - 1 }
  else arena

/-- Equal wrappers are merged, from the leaves upwards. -/
def mergeEqual (arena : Arena) : Arena :=
  arena.buckets.foldl (fun arena bucket =>
    (pairs bucket).foldl (fun arena pair => arena.merge pair.1 pair.2) arena) arena

/-- The first inner node of greatest depth to which several places refer. -/
def firstShared? (arena : Arena) : Option Nat :=
  arena.buckets.reverse.findSome? fun bucket =>
    bucket.find? fun index =>
      1 < (arena.wrapper index).references && !(arena.wrapper index).node.isLeaf

/-! ## Building the tree again -/

/-- The trees that were built so far, for each wrapper. -/
abbrev Memo := Array (Option Expr)

end Arena

namespace Expr

/-- A node over children that took the place of its own when a replacement was
put in.  It is made anew unless they are the very same children. -/
def withParts (node replacement : Expr) (parts : List Expr) : Except NodeError Expr :=
  if (parts.zip node.children).all fun pair => pair.1.isSameNode pair.2 then .ok node
  else do return (← node.withChildren parts).withMark (node.mark.renewed replacement.mark)

end Expr

namespace Arena

/-- A wrapper's tree, put together from those of the wrappers in its places, with a
replacement for one of the wrappers. -/
def assemble (arena : Arena) (hoisted : Nat) (replacement : Expr)
    (part : Nat → StateT Memo (Except NodeError) Expr) (index : Nat) :
    StateT Memo (Except NodeError) Expr :=
  let wrapper := arena.wrapper index
  if index = hoisted then pure replacement
  else if wrapper.children.isEmpty then pure wrapper.node
  else do
    let parts ← wrapper.children.mapM part
    StateT.lift (wrapper.node.withParts replacement parts)

/-- The tree of a wrapper, from the table if it was built before.  Places hold
wrappers that come before their own, so as many levels as there are wrappers are
enough. -/
def rebuild (arena : Arena) (hoisted : Nat) (replacement : Expr) :
    Nat → Nat → StateT Memo (Except NodeError) Expr
  | 0, index => pure (arena.wrapper index).node
  | levels + 1, index => do
      match (← get).getD index none with
      | some done => pure done
      | none =>
          let built ← arena.assemble hoisted replacement
            (arena.rebuild hoisted replacement levels) index
          modify (·.setIfInBounds index (some built))
          pure built

end Arena

end SymbolicAlgebra
