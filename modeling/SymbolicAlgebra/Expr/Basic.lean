import SymbolicAlgebra.Expr.Mark
import SymbolicAlgebra.Expr.Symbol
import SymbolicAlgebra.Number.Basic

/-!
# Expression trees

Formulas, intermediate results and values are all trees of one type.  A node's
constructor fixes the number of its children; only arrays have any number of
them.  Errors are leaves: an operation that meets one hands it on.

Every node bears a mark, which tells it from other nodes that look like it.  The
mark is the last argument of a constructor and may be left out, for a node that
is yet to be marked.

Two trees are equal, in the sense of `==`, when they have the same shape and
equal leaves, where doubles compare as numbers: the two zeros are equal, and an
undefined number is known to equal only itself, that is, the node with its
mark.  In all else marks do not matter.
-/

namespace SymbolicAlgebra

/-- The classes of error leaves. -/
inductive FaultKind where
  /-- An ill-defined numeric result. -/
  | notANumber
  /-- An access out of range or a mismatch of array sizes. -/
  | indexOutOfBounds
  /-- An operation on operands of the wrong kind. -/
  | typeMismatch
  /-- A symbolic result that cannot be reduced further. -/
  | unresolved
  /-- An evaluation that was stopped from outside. -/
  | cancelled
deriving DecidableEq, Repr

namespace FaultKind

def name : FaultKind → String
  | notANumber => "NotANumber"
  | indexOutOfBounds => "IndexOutOfBounds"
  | typeMismatch => "TypeMismatch"
  | unresolved => "Unresolved"
  | cancelled => "Cancelled"

/-- All classes of error leaves. -/
def all : List FaultKind := [notANumber, indexOutOfBounds, typeMismatch, unresolved, cancelled]

/-- The class of a name. -/
def ofName? (name : String) : Option FaultKind := all.find? (·.name = name)

end FaultKind

/-- The content of an error leaf. -/
structure Fault where
  kind : FaultKind
  message : String
deriving DecidableEq, Repr

/-- The text of an error leaf. -/
def Fault.text (fault : Fault) : String := "Exception:\"" ++ fault.message ++ "\""

/-- An expression tree. -/
inductive Expr where
  | number (value : Number) (mark : Mark := Mark.initial)
  | bool (value : Bool) (mark : Mark := Mark.initial)
  | char (value : Char) (mark : Mark := Mark.initial)
  | text (value : String) (mark : Mark := Mark.initial)
  | var (name : String) (mark : Mark := Mark.initial)
  | error (fault : Fault) (mark : Mark := Mark.initial)
  | array (items : List Expr) (mark : Mark := Mark.initial)
  | unary (op : UnaryOp) (operand : Expr) (mark : Mark := Mark.initial)
  | arith (op : ArithOp) (left right : Expr) (mark : Mark := Mark.initial)
  | relation (comparison : Relation) (left right : Expr) (mark : Mark := Mark.initial)
  | connective (link : Connective) (left right : Expr) (mark : Mark := Mark.initial)
  | call (function : UnaryFunction) (argument : Expr) (mark : Mark := Mark.initial)
  | call₂ (function : BinaryFunction) (first second : Expr) (mark : Mark := Mark.initial)
  | conditional (test consequence alternative : Expr) (mark : Mark := Mark.initial)
  | whileLoop (test body : Expr) (mark : Mark := Mark.initial)
  | forLoop (start test step body : Expr) (mark : Mark := Mark.initial)
  | summation (body index first last : Expr) (mark : Mark := Mark.initial)
  | pause (seconds : Expr) (mark : Mark := Mark.initial)
  | assignment (target value : Expr) (mark : Mark := Mark.initial)

/-- What a node is apart from its children. -/
inductive Head where
  | leaf
  | array
  | operator (op : Operator)
  | function (function : Function)
  | construct (construct : Construct)
deriving DecidableEq

namespace Expr

/-! ## Leaves -/

/-- An integer leaf. -/
def int (value : Int) : Expr := .number (.int value)

/-- A double leaf. -/
def real (value : Float) : Expr := .number (.real value)

/-- The base of the natural logarithm. -/
def euler : Expr := real Double.euler

/-- The ratio of a circle's circumference to its diameter. -/
def pi : Expr := real Double.pi

def typeMismatch (message : String) : Expr := .error ⟨.typeMismatch, message⟩

def outOfBounds (message : String) : Expr := .error ⟨.indexOutOfBounds, message⟩

def cancelled (message : String) : Expr := .error ⟨.cancelled, message⟩

/-! ## Shape -/

/-- The tag of a node. -/
def head : Expr → Head
  | .array _ _ => .array
  | .unary op _ _ => .operator (.unary op)
  | .arith op _ _ _ => .operator (.arith op)
  | .relation comparison _ _ _ => .operator (.relation comparison)
  | .connective link _ _ _ => .operator (.connective link)
  | .call function _ _ => .function (.unary function)
  | .call₂ function _ _ _ => .function (.binary function)
  | .conditional _ _ _ _ => .construct .conditional
  | .whileLoop _ _ _ => .construct .whileLoop
  | .forLoop _ _ _ _ _ => .construct .forLoop
  | .summation _ _ _ _ _ => .construct .summation
  | .pause _ _ => .construct .pause
  | .assignment _ _ _ => .construct .assignment
  | _ => .leaf

/-- The children of a node from left to right. -/
def children : Expr → List Expr
  | .array items _ => items
  | .unary _ operand _ => [operand]
  | .arith _ left right _ => [left, right]
  | .relation _ left right _ => [left, right]
  | .connective _ left right _ => [left, right]
  | .call _ argument _ => [argument]
  | .call₂ _ first second _ => [first, second]
  | .conditional test consequence alternative _ => [test, consequence, alternative]
  | .whileLoop test body _ => [test, body]
  | .forLoop start test step body _ => [start, test, step, body]
  | .summation body index first last _ => [body, index, first, last]
  | .pause seconds _ => [seconds]
  | .assignment target value _ => [target, value]
  | _ => []

/-- The number of children. -/
def arity (tree : Expr) : Nat := tree.children.length

/-- Numbers, truth values, characters, texts, variables and errors are leaves;
an array is none, even when it is empty. -/
def isLeaf (tree : Expr) : Bool := tree.head = .leaf

def operator? (tree : Expr) : Option Operator :=
  match tree.head with
  | .operator op => some op
  | _ => none

def function? (tree : Expr) : Option Function :=
  match tree.head with
  | .function function => some function
  | _ => none

def construct? (tree : Expr) : Option Construct :=
  match tree.head with
  | .construct construct => some construct
  | _ => none

/-! ## Views of leaves -/

def asNumber? : Expr → Option Number
  | .number value _ => some value
  | _ => none

/-- The numeric value of a number, or of a truth value read as zero or one. -/
def toNumber? : Expr → Option Number
  | .number value _ => some value
  | .bool value _ => some (.int (if value then 1 else 0))
  | _ => none

def asInt? : Expr → Option Int
  | .number (.int value) _ => some value
  | _ => none

def asBool? : Expr → Option Bool
  | .bool value _ => some value
  | _ => none

def asVar? : Expr → Option String
  | .var name _ => some name
  | _ => none

def asText? : Expr → Option String
  | .text value _ => some value
  | _ => none

def asArray? : Expr → Option (List Expr)
  | .array items _ => some items
  | _ => none

def asFault? : Expr → Option Fault
  | .error fault _ => some fault
  | _ => none

/-- The position of a leaf in the numeric tower. -/
def tier : Expr → Tier
  | .bool _ _ => .boolean
  | .number value _ => value.tier
  | _ => .nonNumeric

/-! ## Predicates -/

def isNumber (tree : Expr) : Bool := tree.asNumber?.isSome

/-- Characters and texts. -/
def isTextual : Expr → Bool
  | .char _ _ | .text _ _ => true
  | _ => false

/-- Numbers, truth values, characters and texts. -/
def isConstant : Expr → Bool
  | .number _ _ | .bool _ _ | .char _ _ | .text _ _ => true
  | _ => false

def isNaN (tree : Expr) : Bool := tree.asNumber?.any Number.isNaN

/-- Error leaves and NaN, which every operation hands on unchanged. -/
def isError (tree : Expr) : Bool := tree.asFault?.isSome || tree.isNaN

/-- The class of an error, of NaN, or of an unresolved derivative or solution. -/
def faultKind? : Expr → Option FaultKind
  | .error fault _ => some fault.kind
  | .call₂ .diff _ _ _ | .call₂ .solve _ _ _ => some .unresolved
  | tree => if tree.isNaN then some .notANumber else none

def isZero (tree : Expr) : Bool := tree.asNumber?.any Number.isZero

def isOne (tree : Expr) : Bool := tree.asNumber?.any Number.isOne

def isMinusOne (tree : Expr) : Bool := tree.asNumber?.any Number.isMinusOne

def isNegativeNumber (tree : Expr) : Bool := tree.asNumber?.any Number.isNegative

/-! ## Equality -/

mutual

/-- Two trees have the same shape and equal leaves.  Undefined numbers are equal
when they are one node, which their marks tell. -/
def agree : Expr → Expr → Bool
  | .number x m, .number y n => x == y || (x.isNaN && m = n)
  | .bool x _, .bool y _ => x == y
  | .char x _, .char y _ => x == y
  | .text x _, .text y _ => x == y
  | .var x _, .var y _ => x == y
  | .error x _, .error y _ => x == y
  | .array xs _, .array ys _ => agreeAll xs ys
  | .unary f a _, .unary g b _ => f == g && agree a b
  | .arith f a b _, .arith g c d _ => f == g && agree a c && agree b d
  | .relation f a b _, .relation g c d _ => f == g && agree a c && agree b d
  | .connective f a b _, .connective g c d _ => f == g && agree a c && agree b d
  | .call f a _, .call g b _ => f == g && agree a b
  | .call₂ f a b _, .call₂ g c d _ => f == g && agree a c && agree b d
  | .conditional a b c _, .conditional d e f _ => agree a d && agree b e && agree c f
  | .whileLoop a b _, .whileLoop c d _ => agree a c && agree b d
  | .forLoop a b c d _, .forLoop e f g h _ => agree a e && agree b f && agree c g && agree d h
  | .summation a b c d _, .summation e f g h _ => agree a e && agree b f && agree c g && agree d h
  | .pause a _, .pause b _ => agree a b
  | .assignment a b _, .assignment c d _ => agree a c && agree b d
  | _, _ => false

/-- Two lists of trees agree element by element. -/
def agreeAll : List Expr → List Expr → Bool
  | [], [] => true
  | x :: xs, y :: ys => agree x y && agreeAll xs ys
  | _, _ => false

end

instance : BEq Expr := ⟨agree⟩

/-- The nodes have the same tag and the same number of children; leaves are
compared fully. -/
def sameHead (left right : Expr) : Bool :=
  if left.isLeaf || right.isLeaf then left == right
  else left.head = right.head && left.arity = right.arity

/-! ## Folding -/

mutual

/-- The value of a tree computed from its leaves upwards. -/
def fold {Result : Type} (leaf : Expr → Result) (node : Expr → List Result → Result) :
    Expr → Result
  | tree@(.array items _) => node tree (foldAll leaf node items)
  | tree@(.unary _ operand _) => node tree [fold leaf node operand]
  | tree@(.arith _ left right _) => node tree [fold leaf node left, fold leaf node right]
  | tree@(.relation _ left right _) => node tree [fold leaf node left, fold leaf node right]
  | tree@(.connective _ left right _) => node tree [fold leaf node left, fold leaf node right]
  | tree@(.call _ argument _) => node tree [fold leaf node argument]
  | tree@(.call₂ _ first second _) => node tree [fold leaf node first, fold leaf node second]
  | tree@(.conditional test consequence alternative _) =>
      node tree [fold leaf node test, fold leaf node consequence, fold leaf node alternative]
  | tree@(.whileLoop test body _) => node tree [fold leaf node test, fold leaf node body]
  | tree@(.forLoop start test step body _) =>
      node tree [fold leaf node start, fold leaf node test, fold leaf node step,
        fold leaf node body]
  | tree@(.summation body index first last _) =>
      node tree [fold leaf node body, fold leaf node index, fold leaf node first,
        fold leaf node last]
  | tree@(.pause seconds _) => node tree [fold leaf node seconds]
  | tree@(.assignment target value _) => node tree [fold leaf node target, fold leaf node value]
  | tree => leaf tree

/-- The values of a list of trees. -/
def foldAll {Result : Type} (leaf : Expr → Result) (node : Expr → List Result → Result) :
    List Expr → List Result
  | [] => []
  | tree :: trees => fold leaf node tree :: foldAll leaf node trees

end

section Fold

variable {Result : Type} (leaf : Expr → Result) (node : Expr → List Result → Result)

theorem fold_unary (op : UnaryOp) (operand : Expr) (mark : Mark) :
    fold leaf node (.unary op operand mark) =
      node (.unary op operand mark) [fold leaf node operand] :=
  rfl

theorem fold_arith (op : ArithOp) (left right : Expr) (mark : Mark) :
    fold leaf node (.arith op left right mark) =
      node (.arith op left right mark) [fold leaf node left, fold leaf node right] :=
  rfl

theorem fold_call (function : UnaryFunction) (argument : Expr) (mark : Mark) :
    fold leaf node (.call function argument mark) =
      node (.call function argument mark) [fold leaf node argument] :=
  rfl

end Fold

/-- The number of nodes of a tree. -/
def size : Expr → Nat := fold (fun _ => 1) fun _ sizes => sizes.foldr (· + ·) 1

@[simp] theorem size_number (number : Number) (mark : Mark) : (Expr.number number mark).size = 1 :=
  rfl

@[simp] theorem size_var (name : String) (mark : Mark) : (Expr.var name mark).size = 1 := rfl

@[simp] theorem size_unary (op : UnaryOp) (operand : Expr) (mark : Mark) :
    (Expr.unary op operand mark).size = operand.size + 1 :=
  rfl

@[simp] theorem size_arith (op : ArithOp) (left right : Expr) (mark : Mark) :
    (Expr.arith op left right mark).size = left.size + (right.size + 1) :=
  rfl

@[simp] theorem size_call (function : UnaryFunction) (argument : Expr) (mark : Mark) :
    (Expr.call function argument mark).size = argument.size + 1 :=
  rfl

theorem size_pos (tree : Expr) : 0 < tree.size := by
  have positive (sizes : List Nat) : 0 < sizes.foldr (· + ·) 1 := by
    induction sizes with
    | nil => exact Nat.one_pos
    | cons size sizes ih => exact Nat.add_pos_right size ih
  cases tree <;> first | exact positive _ | exact Nat.one_pos

end Expr

end SymbolicAlgebra
