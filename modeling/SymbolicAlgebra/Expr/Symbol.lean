/-!
# Operators, functions and constructs

The tags of inner nodes.  Each tag fixes the number of children of its node;
operators are known by their glyph, functions and constructs by their name.
-/

namespace SymbolicAlgebra

/-- Operators on one operand. -/
inductive UnaryOp where
  | neg
  | not
deriving DecidableEq, Repr

/-- Arithmetic operators on two operands. -/
inductive ArithOp where
  | add
  | sub
  | mul
  | div
  | pow
deriving DecidableEq, Repr

/-- Equality and the four order relations. -/
inductive Relation where
  | equal
  | less
  | greater
  | lessEq
  | greaterEq
deriving DecidableEq, Repr

/-- Logical connectives on two operands. -/
inductive Connective where
  | and
  | or
deriving DecidableEq, Repr

/-- Any operator. -/
inductive Operator where
  | unary (op : UnaryOp)
  | arith (op : ArithOp)
  | relation (comparison : Relation)
  | connective (link : Connective)
deriving DecidableEq, Repr

/-- Functions of one argument. -/
inductive UnaryFunction where
  | sin
  | cos
  | tan
  | atan
  | sinh
  | cosh
  | tanh
  | exp
  | ln
  | sqrt
  | abs
  | sign
  | norm
  | conj
  | fact
  | det
  | randList
deriving DecidableEq, Repr

/-- Functions of two arguments.  The last two stand for a derivative or a
solution that could not be worked out. -/
inductive BinaryFunction where
  | max
  | min
  | diff
  | solve
deriving DecidableEq, Repr

/-- Any function. -/
inductive Function where
  | unary (function : UnaryFunction)
  | binary (function : BinaryFunction)
deriving DecidableEq, Repr

/-- Control constructs, whose children are evaluated on demand. -/
inductive Construct where
  | conditional
  | whileLoop
  | forLoop
  | summation
  | pause
  | assignment
deriving DecidableEq, Repr

namespace UnaryOp

def glyph : UnaryOp → String
  | neg => "-"
  | not => "!"

end UnaryOp

namespace ArithOp

def glyph : ArithOp → String
  | add => "+"
  | sub => "-"
  | mul => "*"
  | div => "/"
  | pow => "^"

end ArithOp

namespace Relation

def glyph : Relation → String
  | equal => "="
  | less => "<"
  | greater => ">"
  | lessEq => "<="
  | greaterEq => ">="

/-- The relation holds between two values that compare in the given order. -/
def holds : Relation → Ordering → Bool
  | equal, order => order == .eq
  | less, order => order == .lt
  | greater, order => order == .gt
  | lessEq, order => order != .gt
  | greaterEq, order => order != .lt

end Relation

namespace Connective

def glyph : Connective → String
  | and => "&"
  | or => "|"

/-- The truth value that decides the connective alone: false for `and`, true
for `or`. -/
def absorbing : Connective → Bool
  | and => false
  | or => true

/-- The connective on truth values. -/
def apply : Connective → Bool → Bool → Bool
  | and, left, right => left && right
  | or, left, right => left || right

end Connective

namespace Operator

/-- The glyph that the operator is written with. -/
def glyph : Operator → String
  | .unary op => op.glyph
  | .arith op => op.glyph
  | .relation comparison => comparison.glyph
  | .connective link => link.glyph

/-- The number of operands. -/
def arity : Operator → Nat
  | .unary _ => 1
  | _ => 2

/-- All operators. -/
def all : List Operator :=
  [.arith .add, .arith .sub, .arith .mul, .arith .div, .arith .pow, .unary .neg, .unary .not,
   .relation .equal, .relation .less, .relation .greater, .relation .lessEq,
   .relation .greaterEq, .connective .and, .connective .or]

end Operator

namespace UnaryFunction

def name : UnaryFunction → String
  | sin => "sin"
  | cos => "cos"
  | tan => "tan"
  | atan => "atan"
  | sinh => "sinh"
  | cosh => "cosh"
  | tanh => "tanh"
  | exp => "exp"
  | ln => "ln"
  | sqrt => "sqrt"
  | abs => "abs"
  | sign => "sign"
  | norm => "norm"
  | conj => "conj"
  | fact => "fact"
  | det => "det"
  | randList => "randlist"

end UnaryFunction

namespace BinaryFunction

def name : BinaryFunction → String
  | max => "max"
  | min => "min"
  | diff => "diff"
  | solve => "solve"

end BinaryFunction

namespace Function

def name : Function → String
  | .unary function => function.name
  | .binary function => function.name

/-- The number of arguments. -/
def arity : Function → Nat
  | .unary _ => 1
  | .binary _ => 2

/-- All functions. -/
def all : List Function :=
  [.unary .sin, .unary .cos, .unary .tan, .unary .atan, .unary .sinh, .unary .cosh,
   .unary .tanh, .unary .exp, .unary .ln, .unary .sqrt, .unary .abs, .unary .sign,
   .unary .norm, .unary .conj, .unary .fact, .unary .det, .binary .max, .binary .min,
   .unary .randList, .binary .diff, .binary .solve]

/-- The function of a name. -/
def ofName? (name : String) : Option Function := all.find? (·.name = name)

end Function

namespace Construct

def name : Construct → String
  | conditional => "if"
  | whileLoop => "while"
  | forLoop => "for"
  | summation => "sum"
  | pause => "sleep"
  | assignment => "assign"

/-- The number of children. -/
def arity : Construct → Nat
  | conditional => 3
  | whileLoop => 2
  | forLoop => 4
  | summation => 4
  | pause => 1
  | assignment => 2

/-- All constructs. -/
def all : List Construct :=
  [conditional, whileLoop, forLoop, summation, pause, assignment]

/-- The construct of a name. -/
def ofName? (name : String) : Option Construct := all.find? (·.name = name)

end Construct

end SymbolicAlgebra
