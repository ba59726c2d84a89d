import SymbolicAlgebra.Arithmetic.Kernel
import SymbolicAlgebra.Number.Order

/-!
# Negation, comparison and connectives

Constants compare to a truth value; symbolic operands keep the node.  The
absorbing truth value of a connective decides alone, and its neutral one hands
over the other operand.
-/

namespace SymbolicAlgebra

namespace Expr

mutual

/-- Logical negation, element by element on arrays. -/
def negation : Expr → Marking Expr
  | .bool value _ => make (.bool (!value))
  | .array items _ => do make (.array (← negationAll items))
  | .unary .not operand _ => pure operand
  | operand =>
      if operand.isError then pure operand
      else if operand.isConstant then make (.typeMismatch "not expects a boolean")
      else make (.unary .not operand)

/-- Logical negation of each tree of a list. -/
def negationAll : List Expr → Marking (List Expr)
  | [] => pure []
  | item :: items => do
      let result ← negation item
      let results ← negationAll items
      pure (result :: results)

end

/-- The order of two texts or two characters. -/
def compareText? : Expr → Expr → Option Ordering
  | .text x _, .text y _ => some (compare x y)
  | .char x _, .char y _ => some (compare x y)
  | _, _ => none

/-- Two numbers compared by value; complex numbers can only be equal or not. -/
def compareNumbers (relation : Relation) (x y : Number) : Marking Expr :=
  if relation = .equal then make (.bool (x.valueEq y))
  else
    match x.compare? y with
    | some order => make (.bool (relation.holds order))
    | none => make (.typeMismatch "complex values are not ordered")

/-- Two operands that are not both numbers, compared as texts, as unrelated
constants or as trees. -/
def compareTrees (relation : Relation) (left right : Expr) : Marking Expr :=
  match compareText? left right with
  | some order => make (.bool (relation.holds order))
  | none =>
      if left.isConstant && right.isConstant then
        if relation = .equal then make (.bool false)
        else make (.typeMismatch ("operator " ++ relation.glyph ++ " on unrelated constants"))
      else if left == right then make (.bool (relation.holds .eq))
      else make (.relation relation left right)

/-- A relation between two operands. -/
def compareBy (relation : Relation) (left right : Expr) : Marking Expr :=
  match firstError? left right with
  | some operand => pure operand
  | none =>
      match left.toNumber?, right.toNumber? with
      | some x, some y => compareNumbers relation x y
      | _, _ => compareTrees relation left right

/-- A connective between two operands that are not both truth values. -/
def connectMixed (link : Connective) (left right : Expr) : Marking Expr :=
  if left.asBool? = some link.absorbing || right.asBool? = some link.absorbing then
    make (.bool link.absorbing)
  else if left.asBool?.isSome && !right.isConstant then pure right
  else if right.asBool?.isSome && !left.isConstant then pure left
  else if left.isConstant || right.isConstant then
    make (.typeMismatch ("operator " ++ link.glyph ++ " expects booleans"))
  else make (.connective link left right)

/-- A connective between two operands. -/
def connect (link : Connective) (left right : Expr) : Marking Expr :=
  match firstError? left right with
  | some operand => pure operand
  | none =>
      match left, right with
      | .bool x _, .bool y _ => make (.bool (link.apply x y))
      | _, _ => connectMixed link left right

end Expr

end SymbolicAlgebra
