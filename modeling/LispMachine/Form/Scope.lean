/-!
# Scopes

A scope has the shape that the environment will have when the code is executed: one list of names
for each enclosing `lambda`, `let` or `letrec`, and the global names outside of all of them. To
resolve a name is to find where its value will stand: how many frames outward, and at which offset.

The innermost frame that binds a name wins, and within a frame the last of equal names: a global
that is defined again gets a new offset, and code that is read afterwards sees the new one.
-/

namespace LispMachine

/-- Where a variable's value stands: so many frames outward, at an offset of that frame. -/
structure Address where
  depth : Nat
  offset : Nat
deriving DecidableEq, Repr

/-- The place of the last occurrence of a name. -/
def lastIndex? (name : String) : List String → Option Nat
  | [] => none
  | bound :: rest =>
    match lastIndex? name rest with
    | some i => some (i + 1)
    | none => if bound = name then some 0 else none

/-- The names that are bound at a place in a program. -/
structure Scope where
  /-- The frames of the enclosing forms, the innermost first. -/
  locals : List (List String) := []
  /-- The global names, the oldest first. -/
  globals : List String := []
deriving DecidableEq, Repr

namespace Scope

/-- Enters a form that binds names. -/
def push (s : Scope) (names : List String) : Scope := { s with locals := names :: s.locals }

/-- Leaves the innermost form. The global names are never left. -/
def pop? (s : Scope) : Option (List String × Scope) :=
  match s.locals with
  | names :: rest => some (names, { s with locals := rest })
  | [] => none

/-- Defines one more global name, wherever the scope is. -/
def define (s : Scope) (name : String) : Scope := { s with globals := s.globals ++ [name] }

/-- All frames, the innermost first and the global one last. -/
def frames (s : Scope) : List (List String) := s.locals ++ [s.globals]

/-- The number of frames. -/
def depth (s : Scope) : Nat := s.locals.length + 1

/-- Finds a name in frames, the innermost first. -/
def resolveIn (name : String) : List (List String) → Option Address
  | [] => none
  | names :: outer =>
    match lastIndex? name names with
    | some offset => some ⟨0, offset⟩
    | none => (resolveIn name outer).map fun a => { a with depth := a.depth + 1 }

/-- Where the value of a name will stand, if the name is bound. -/
def resolve (s : Scope) (name : String) : Option Address := resolveIn name s.frames

end Scope

end LispMachine
