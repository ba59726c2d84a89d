import SymbolicAlgebra.Trace

/-!
# Controllers

A controller carries what one evaluation is granted: whether it may loop and
draw random numbers, whether it has been told to stop, and a pool of scratch
buffers.  Without a controller nothing is granted, nothing is pooled and nothing
ever stops.
-/

namespace SymbolicAlgebra

/-- Permissions, stop flag and scratch pool of an evaluation. -/
structure Controller where
  allowLoops : Bool
  allowRandom : Bool
  /-- What each look at the stop flag finds, counted from the start of an evaluation.
  The flag may be set and cleared from outside at any time. -/
  stopped : Nat → Bool
  /-- The interval in microseconds at which a pause looks at the stop flag. -/
  sleepPoll : Nat
  /-- The largest number of idle buffers kept. -/
  capacity : Nat
  /-- The idle buffers, the next one to be taken first. -/
  pool : List (List Expr)

namespace Controller

/-- The number of idle buffers kept by default. -/
def defaultCapacity : Nat := 8

/-- The default poll interval in milliseconds. -/
def defaultPollMillis : Nat := 1

/-- A poll interval is at least one microsecond. -/
def pollOfMillis (millis : Nat) : Nat := max (millis * 1000) 1

/-- A controller that grants nothing. -/
def new : Controller where
  allowLoops := false
  allowRandom := false
  stopped := fun _ => false
  sleepPoll := pollOfMillis defaultPollMillis
  capacity := defaultCapacity
  pool := []

def withLoops (controller : Controller) (allow : Bool) : Controller :=
  { controller with allowLoops := allow }

def withRandom (controller : Controller) (allow : Bool) : Controller :=
  { controller with allowRandom := allow }

/-- A controller that grants everything. -/
def permissive : Controller := (new.withLoops true).withRandom true

/-- Changes the number of buffers kept; surplus ones are dropped. -/
def withCapacity (controller : Controller) (capacity : Nat) : Controller :=
  { controller with
    capacity := capacity
    pool := controller.pool.drop (controller.pool.length - capacity) }

def withPollMillis (controller : Controller) (millis : Nat) : Controller :=
  { controller with sleepPoll := pollOfMillis millis }

/-- The stop flag is set and cleared from outside while an evaluation runs. -/
def withSignals (controller : Controller) (stopped : Nat → Bool) : Controller :=
  { controller with stopped := stopped }

/-- Sets the stop flag. -/
def stop (controller : Controller) : Controller := controller.withSignals fun _ => true

/-- Clears the stop flag. -/
def reset (controller : Controller) : Controller := controller.withSignals fun _ => false

/-- The stop flag is set. -/
def isStopped (controller : Controller) : Bool := controller.stopped 0

/-- The number of idle buffers. -/
def pooled (controller : Controller) : Nat := controller.pool.length

/-- Takes an empty buffer, an idle one if there is any. -/
def checkout (controller : Controller) : List Expr × Controller :=
  match controller.pool with
  | [] => ([], controller)
  | buffer :: rest => (buffer, { controller with pool := rest })

/-- Hands a buffer back.  It is emptied, and dropped when the pool is full. -/
def giveBack (controller : Controller) (buffer : List Expr) : Controller :=
  if controller.pool.length < controller.capacity then
    { controller with pool := buffer.take 0 :: controller.pool }
  else controller

/-- The effect of one step of a computation on the pool. -/
def observe (controller : Controller) : Step → Controller
  | .checkout _ => controller.checkout.2
  | .giveBack left => controller.giveBack left
  | _ => controller

/-- The controller after some steps of a computation. -/
def replay (controller : Controller) (steps : List Step) : Controller :=
  steps.foldl observe controller

end Controller

end SymbolicAlgebra
