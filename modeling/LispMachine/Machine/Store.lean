import LispMachine.Value

/-!
# The store

Frames hold the values of one lexical scope each, by offset. They are the only part of the machine
that is shared: environments and closures name frames, and a change of a frame is seen through all of
them. The store holds every frame that was ever made, and a frame's name is the place where it
stands, so a new frame never has the name of an older one.

What an instruction may do to the store is an `Effect`: nothing, a new frame, new contents for a
frame, or one more value at a frame's end.
-/

namespace LispMachine

/-- The values of one scope, by offset. -/
abbrev Frame := List Value

/-- Every frame that was made, each at the place that its name gives. -/
structure Store where
  frames : Array Frame
deriving Repr, Inhabited

namespace Store

/-- A store with no frames. -/
def empty : Store := ⟨#[]⟩

/-- The number of frames; also the name of the next one. -/
def size (s : Store) : Nat := s.frames.size

/-- The values of a frame. -/
def contents (s : Store) (f : FrameId) : Frame := s.frames.getD f []

/-- The value at an offset of a frame. -/
def get? (s : Store) (f : FrameId) (offset : Nat) : Option Value := (s.contents f)[offset]?

/-- Makes a new frame, whose name is the old size of the store. -/
def alloc (s : Store) (values : Frame) : Store := ⟨s.frames.push values⟩

/-- Gives a frame new contents. -/
def fill (s : Store) (f : FrameId) (values : Frame) : Store := ⟨s.frames.setIfInBounds f values⟩

/-- Puts a value at the end of a frame. -/
def append (s : Store) (f : FrameId) (value : Value) : Store :=
  ⟨s.frames.modify f (· ++ [value])⟩

/-- Cuts a frame down to its first values. -/
def truncate (s : Store) (f : FrameId) (count : Nat) : Store := ⟨s.frames.modify f (·.take count)⟩

/-- How a frame is shown: its inspected values in brackets. -/
def inspect (s : Store) (f : FrameId) : String :=
  "[" ++ ", ".intercalate ((s.contents f).map Value.inspect) ++ "]"

/-- How an environment is shown: its frames in brackets, the outermost first. -/
def inspectAll (s : Store) (env : Environment) : String :=
  "[" ++ ", ".intercalate (env.reverse.map s.inspect) ++ "]"

/-! The operations through the view `contents`: each changes the frame it names and no other. -/

@[simp] theorem size_alloc (s : Store) (values : Frame) : (s.alloc values).size = s.size + 1 := by
  simp [alloc, size]

@[simp] theorem size_fill (s : Store) (f : FrameId) (values : Frame) :
    (s.fill f values).size = s.size := by
  simp [fill, size]

@[simp] theorem size_append (s : Store) (f : FrameId) (value : Value) :
    (s.append f value).size = s.size := by
  simp [append, size]

@[simp] theorem size_truncate (s : Store) (f : FrameId) (count : Nat) :
    (s.truncate f count).size = s.size := by
  simp [truncate, size]

theorem contents_alloc (s : Store) (values : Frame) (g : FrameId) :
    (s.alloc values).contents g = if g = s.size then values else s.contents g := by
  simp only [alloc, contents, size, Array.getD_eq_getD_getElem?, Array.getElem?_push]
  by_cases hg : g = s.frames.size
  · rw [if_pos hg, if_pos hg, Option.getD_some]
  · rw [if_neg hg, if_neg hg]

theorem contents_fill (s : Store) (f : FrameId) (values : Frame) (g : FrameId) :
    (s.fill f values).contents g = if g = f ∧ f < s.size then values else s.contents g := by
  simp only [fill, contents, size, Array.getD_eq_getD_getElem?, Array.getElem?_setIfInBounds]
  grind

theorem contents_append (s : Store) (f : FrameId) (value : Value) (g : FrameId) :
    (s.append f value).contents g =
      if g = f ∧ f < s.size then s.contents g ++ [value] else s.contents g := by
  simp only [append, contents, size, Array.getD_eq_getD_getElem?, Array.getElem?_modify]
  grind

theorem contents_truncate (s : Store) (f : FrameId) (count : Nat) (g : FrameId) :
    (s.truncate f count).contents g = if g = f then (s.contents g).take count else s.contents g := by
  simp only [truncate, contents, Array.getD_eq_getD_getElem?, Array.getElem?_modify]
  grind

end Store

/-- What an instruction does to the store. -/
inductive Effect where
  | keep
  | alloc (values : Frame)
  | fill (f : FrameId) (values : Frame)
  | append (f : FrameId) (value : Value)
deriving Repr, Inhabited

/-- Carries out an effect. -/
def Store.apply (s : Store) : Effect → Store
  | .keep => s
  | .alloc values => s.alloc values
  | .fill f values => s.fill f values
  | .append f value => s.append f value

end LispMachine
