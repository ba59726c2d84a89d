import SymbolicAlgebra.Sharing.Arena
import SymbolicAlgebra.Trace

/-!
# Hoisting repeated subtrees

A subtree that occurs several times in a tree can be replaced by an auxiliary
variable, whose definition is kept beside the tree.  One step replaces all
occurrences of one repeated subtree of greatest height; flattening repeats this
until nothing repeats.  Putting the definitions back, the latest first, restores
the tree.
-/

namespace SymbolicAlgebra

/-- Auxiliary variables and the subtrees that they stand for. -/
structure Auxiliaries where
  names : List String
  definitions : List Expr

namespace Auxiliaries

/-- No auxiliary variables. -/
def empty : Auxiliaries := ⟨[], []⟩

/-- One more auxiliary variable. -/
def push (auxiliaries : Auxiliaries) (name : String) (definition : Expr) : Auxiliaries :=
  ⟨auxiliaries.names ++ [name], auxiliaries.definitions ++ [definition]⟩

end Auxiliaries

namespace Expr

/-- A name that is neither used nor taken: the first numbered one from the
number of taken names on. -/
def freshName (used taken : List String) : String :=
  let candidates := (List.range (used.length + taken.length + 1)).map fun offset =>
    "tmpvar" ++ toString (taken.length + offset)
  (candidates.find? fun name => !used.contains name && !taken.contains name).getD "tmpvar"

/-- One step: the first of the highest nodes that several places share gives way to
a new auxiliary variable.  A tree without such nodes is left as it is. -/
def hoist (tree : Expr) (auxiliaries : Auxiliaries) :
    Traced (Except NodeError (Expr × Auxiliaries)) :=
  let (root, laid) := (Arena.insert tree).run .empty
  let arena := laid.mergeEqual
  match arena.firstShared? with
  | none => pure (.ok (tree, auxiliaries))
  | some shared => do
      let name := freshName tree.variableNames auxiliaries.names
      let ⟨subtree, _, _, references, _⟩ := arena.wrapper shared
      Traced.step (.hoisting subtree references name)
      let replacement ← make (.var name)
      let memo := Array.replicate arena.size none
      match (arena.rebuild shared replacement arena.size root).run' memo with
      | .error fault => pure (.error fault)
      | .ok rebuilt => pure (.ok (rebuilt, auxiliaries.push name subtree))

/-- Steps until nothing repeats, at most the given number of them. -/
def flattenTo : Nat → Expr → Auxiliaries → Traced (Except NodeError (Expr × Auxiliaries))
  | 0, tree, auxiliaries => pure (.ok (tree, auxiliaries))
  | steps + 1, tree, auxiliaries => do
      match ← tree.hoist auxiliaries with
      | .error fault => pure (.error fault)
      | .ok (next, extended) =>
          if extended.names.length = auxiliaries.names.length then pure (.ok (next, extended))
          else flattenTo steps next extended

/-- Steps until nothing repeats.  Each step removes inner nodes, so as many
steps as there are nodes are enough. -/
def flatten (tree : Expr) (auxiliaries : Auxiliaries) :
    Traced (Except NodeError (Expr × Auxiliaries)) :=
  flattenTo (tree.size + 1) tree auxiliaries

/-- The tree with the definitions of auxiliary variables put back, the latest
first. -/
def inlineAuxiliaries (tree : Expr) (auxiliaries : Auxiliaries) : Marking Expr :=
  (auxiliaries.names.zip auxiliaries.definitions).foldr
    (fun auxiliary inlined => do (← inlined).substitute auxiliary.1 auxiliary.2) (pure tree)

end Expr

end SymbolicAlgebra
