import SymbolicAlgebra.Expr.Basic

/-!
# Scopes

A scope is a stack of frames, each of which binds names to trees.  A name is
looked up from the innermost frame outwards, so inner bindings shadow outer
ones.  The value of a binding is meant for the frames outside the one that
binds it, which keeps a binding from referring to itself.
-/

namespace SymbolicAlgebra

/-- Bindings in the order in which their names were first bound. -/
abbrev Frame := List (String × Expr)

namespace Frame

/-- The value that a frame binds to a name. -/
def lookup? (frame : Frame) (name : String) : Option Expr :=
  (frame.find? (·.1 = name)).map (·.2)

/-- The frame binds the name. -/
def binds (frame : Frame) (name : String) : Bool := (frame.lookup? name).isSome

/-- Binds a name, in place of its former value if it had one. -/
def bind (name : String) (value : Expr) : Frame → Frame
  | [] => [(name, value)]
  | (other, old) :: rest =>
      if other = name then (name, value) :: rest else (other, old) :: bind name value rest

end Frame

/-- A stack of frames with the innermost one on top. -/
structure Scope where
  current : Frame
  enclosing : List Frame

namespace Scope

/-- A root scope without bindings. -/
def empty : Scope := ⟨[], []⟩

/-- All frames, from the innermost outwards. -/
def frames (scope : Scope) : List Frame := scope.current :: scope.enclosing

/-- The scope of some frames; no frames make an empty root. -/
def ofFrames : List Frame → Scope
  | [] => empty
  | current :: enclosing => ⟨current, enclosing⟩

/-- Binds a name in the innermost frame. -/
def bind (scope : Scope) (name : String) (value : Expr) : Scope :=
  ⟨scope.current.bind name value, scope.enclosing⟩

/-- A root scope with some bindings, made in order. -/
def ofBindings (bindings : List (String × Expr)) : Scope :=
  bindings.foldl (fun scope binding => scope.bind binding.1 binding.2) empty

/-- Opens a frame inside the current one. -/
def push (scope : Scope) : Scope := ⟨[], scope.frames⟩

/-- Closes the current frame; the root cannot be closed. -/
def pop? (scope : Scope) : Option Scope :=
  match scope.enclosing with
  | [] => none
  | parent :: rest => some ⟨parent, rest⟩

/-- The number of frames around the current one. -/
def depth (scope : Scope) : Nat := scope.enclosing.length

/-- The innermost frame that binds a name: the frames up to it, the value and
the frames outside. -/
def split? (name : String) : List Frame → Option (List Frame × Expr × List Frame)
  | [] => none
  | frame :: rest =>
      match frame.lookup? name with
      | some value => some ([frame], value, rest)
      | none => (split? name rest).map fun (inner, value, outer) => (frame :: inner, value, outer)

/-- The value bound to a name together with the scope that encloses the frame
of the binding; the root frame has none. -/
def lookupWithOuter? (scope : Scope) (name : String) : Option (Expr × Option Scope) :=
  (split? name scope.frames).map fun (_, value, outer) =>
    (value, if outer.isEmpty then none else some (ofFrames outer))

/-- The value bound to a name. -/
def lookup? (scope : Scope) (name : String) : Option Expr :=
  (scope.lookupWithOuter? name).map (·.1)

/-- Overwrites the innermost binding of a name, where there is one. -/
def overwrite? (name : String) (value : Expr) : List Frame → Option (List Frame)
  | [] => none
  | frame :: rest =>
      if frame.binds name then some (frame.bind name value :: rest)
      else (overwrite? name value rest).map (frame :: ·)

/-- Overwrites the innermost binding of a name, or binds it in the current
frame when there is none. -/
def assign (scope : Scope) (name : String) (value : Expr) : Scope :=
  match overwrite? name value scope.frames with
  | some frames => ofFrames frames
  | none => scope.bind name value

end Scope

end SymbolicAlgebra
