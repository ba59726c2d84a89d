import SymbolicAlgebra.Decimal.Layout
import SymbolicAlgebra.Decimal.Reader

/-!
# Values of entries

A token of a document is read as an integer, a double or a truth value where it
has the form of one, and is text otherwise.
-/

namespace SymbolicAlgebra

namespace Document

/-- A typed value. -/
inductive Value where
  | text (value : String)
  | float (value : Float)
  | integer (value : Int)
  | boolean (value : Bool)
deriving BEq, DecidableEq

namespace Value

/-- The words for truth values. -/
def readBool? (token : List Char) : Option Bool :=
  if token = "true".toList then some true
  else if token = "false".toList then some false
  else none

/-- The value of a token: the first of integer, double and truth value that it
has the form of, else text. -/
def ofToken (token : List Char) : Value :=
  match Decimal.readInt? token, Decimal.readFloat? token, readBool? token with
  | some value, _, _ => .integer value
  | none, some value, _ => .float value
  | none, none, some value => .boolean value
  | none, none, none => .text (String.ofList token)

/-- The text of a value. -/
def toText : Value → String
  | .text value => value
  | .float value => Decimal.plain value
  | .integer value => toString value
  | .boolean value => if value then "true" else "false"

end Value

end Document

end SymbolicAlgebra
