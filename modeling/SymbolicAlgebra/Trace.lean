import SymbolicAlgebra.Arithmetic.Chain
import SymbolicAlgebra.Expr.Make
import SymbolicAlgebra.Expr.Structure

/-!
# Traces of computations

A computation has a value and takes steps, in order.  The steps are what a
caller may want to know besides the value: messages for a log, the use of
scratch buffers, the places where an exact computation went on in double
precision or had no value, and what an equation was divided by.  No computation
reads its own trace, so the value never depends on who is listening.

A computation also marks the nodes that it makes.  It is run from the first
number that has not been given out as a mark, and tells which one that is at its
end.
-/

namespace SymbolicAlgebra

/-- The severity of log messages, from the gravest to the most detailed, below
`off`, which admits none. -/
inductive Level where
  | off
  | error
  | warn
  | info
  | debug
  | trace
deriving DecidableEq, Repr

namespace Level

def name : Level → String
  | off => "OFF"
  | error => "ERROR"
  | warn => "WARN"
  | info => "INFO"
  | debug => "DEBUG"
  | trace => "TRACE"

/-- All levels, from the one that admits nothing on. -/
def all : List Level := [off, error, warn, info, debug, trace]

/-- The position of a level among all levels. -/
def rank : Level → Nat
  | off => 0
  | error => 1
  | warn => 2
  | info => 3
  | debug => 4
  | trace => 5

/-- A log kept at this level records messages of the other level. -/
def admits (limit level : Level) : Bool := level.rank ≤ limit.rank

/-- The level of a name, in any mixture of cases. -/
def ofName? (name : String) : Option Level :=
  all.find? fun level => level.name.toList == name.toList.map Char.toUpper

end Level

/-- One step of a computation. -/
inductive Step where
  /-- A scratch buffer was taken, in which these terms were found. -/
  | checkout (found : List Expr)
  /-- A scratch buffer was handed back, in which these terms were left. -/
  | giveBack (left : List Expr)
  /-- An operation on exact numbers gave this inexact result. -/
  | inexact (result : Number)
  /-- An operator was applied to numbers at which it has no value. -/
  | undefined (op : ArithOp) (left right : Number)
  /-- The terms of a chain were collected. -/
  | collecting (chain : Chain) (up down : Nat)
  /-- A repeated subtree was replaced by an auxiliary variable. -/
  | hoisting (subtree : Expr) (references : Nat) (name : String)
  /-- A side of an equation was divided by this tree. -/
  | divided (divisor : Expr)
  /-- An operation was moved from the left side of an equation to the right. -/
  | peeled (side left right : Expr)
  /-- A loop was not run, for want of permission. -/
  | loopRefused (construct : Construct)
  /-- Random numbers were not drawn, for want of permission. -/
  | randomRefused
  /-- A `while` or `for` loop was stopped. -/
  | loopCancelled
  /-- A sum was stopped. -/
  | sumCancelled
  /-- A pause was cut short. -/
  | pauseInterrupted
  /-- A controller was set up with these gates, pool size and poll interval. -/
  | controllerConfigured (loops random : Bool) (pool poll : Nat)
  /-- A log file could not be created. -/
  | logFileRefused (path reason : String)

namespace Step

/-- The word for a truth value. -/
def boolText (value : Bool) : String := if value then "true" else "false"

/-- The log message of a step, for the steps that are logged. -/
def record? : Step → Option (Level × String)
  | checkout _ | giveBack _ | inexact _ | undefined _ _ _ | divided _ => none
  | collecting chain up down =>
      some (.debug, "collecting " ++ chain.word ++ " chain: " ++ toString up ++ " up, " ++
        toString down ++ " down")
  | hoisting subtree references name =>
      some (.debug, "dedup: hoisting " ++ subtree.structureText ++ " (" ++
        toString references ++ " references) as " ++ name)
  | peeled side left right =>
      some (.trace, "solve: peeled " ++ side.structureText ++ " -> " ++ left.structureText ++
        " = " ++ right.structureText)
  | loopRefused construct =>
      some (.warn, construct.name ++ " refused: loops are not allowed by the controller")
  | randomRefused =>
      some (.warn, "randlist refused: randomness is not allowed by the controller")
  | loopCancelled => some (.warn, "loop cancelled by the controller")
  | sumCancelled => some (.warn, "sum cancelled by the controller")
  | pauseInterrupted => some (.warn, "sleep interrupted by the controller")
  | controllerConfigured loops random pool poll =>
      some (.info, "controller: loops " ++ boolText loops ++ ", random " ++ boolText random ++
        ", pool " ++ toString pool ++ ", poll " ++ toString poll ++ " ms")
  | logFileRefused path reason =>
      some (.warn, "log file " ++ path ++ " could not be created: " ++ reason)

end Step

/-- The log messages among some steps that a log at the given level records. -/
def logRecords (limit : Level) (steps : List Step) : List (Level × String) :=
  (steps.filterMap Step.record?).filter fun record => limit.admits record.1

/-- What a computation comes to: its value, the first number not given out as a
mark, and the steps taken. -/
structure Outcome (Value : Type) where
  value : Value
  marks : Nat
  steps : List Step

/-- A computation that takes steps and gives out marks, from a number on. -/
structure Traced (Value : Type) where
  run : Nat → Outcome Value

namespace Traced

variable {First Second : Type}

/-- The value of a computation run from a number. -/
def value (computation : Traced First) (start : Nat) : First := (computation.run start).value

/-- The first number not given out after a computation run from a number. -/
def marks (computation : Traced First) (start : Nat) : Nat := (computation.run start).marks

/-- The steps of a computation run from a number. -/
def steps (computation : Traced First) (start : Nat) : List Step :=
  (computation.run start).steps

instance : Monad Traced where
  pure value := ⟨fun start => ⟨value, start, []⟩⟩
  bind first next := ⟨fun start =>
    let earlier := first.run start
    let later := (next earlier.value).run earlier.marks
    ⟨later.value, later.marks, earlier.steps ++ later.steps⟩⟩

@[simp] theorem value_pure (value : First) (start : Nat) :
    (pure value : Traced First).value start = value := rfl

@[simp] theorem marks_pure (value : First) (start : Nat) :
    (pure value : Traced First).marks start = start := rfl

@[simp] theorem steps_pure (value : First) (start : Nat) :
    (pure value : Traced First).steps start = [] := rfl

@[simp] theorem value_bind (first : Traced First) (next : First → Traced Second) (start : Nat) :
    (first >>= next).value start = (next (first.value start)).value (first.marks start) := rfl

@[simp] theorem marks_bind (first : Traced First) (next : First → Traced Second) (start : Nat) :
    (first >>= next).marks start = (next (first.value start)).marks (first.marks start) := rfl

@[simp] theorem steps_bind (first : Traced First) (next : First → Traced Second) (start : Nat) :
    (first >>= next).steps start =
      first.steps start ++ (next (first.value start)).steps (first.marks start) := rfl

/-- Takes one step. -/
def step (taken : Step) : Traced Unit := ⟨fun start => ⟨(), start, [taken]⟩⟩

/-- A computation that gives out marks and takes no steps. -/
def ofMarking (compute : Marking First) : Traced First :=
  ⟨fun start =>
    let (result, marks) := compute.run start
    ⟨result, marks, []⟩⟩

instance : MonadLift Marking Traced := ⟨ofMarking⟩

@[simp] theorem value_ofMarking (compute : Marking First) (start : Nat) :
    (ofMarking compute).value start = (compute.run start).1 := rfl

@[simp] theorem marks_ofMarking (compute : Marking First) (start : Nat) :
    (ofMarking compute).marks start = (compute.run start).2 := rfl

@[simp] theorem steps_ofMarking (compute : Marking First) (start : Nat) :
    (ofMarking compute).steps start = [] := rfl

/-- The leaf of the result of an operation on the given numbers, with a note when
the operands were exact and the result is not. -/
def numeric (operands : List Number) (result : Number) : Traced Expr := do
  if operands.all Number.isExact && !result.isExact then step (.inexact result)
  Expr.ofNumber result

/-- The results of a computation on each element of a list, from left to
right. -/
def forEach (compute : First → Traced Second) : List First → Traced (List Second)
  | [] => pure []
  | item :: items => do
      let result ← compute item
      let results ← forEach compute items
      pure (result :: results)

end Traced

end SymbolicAlgebra
