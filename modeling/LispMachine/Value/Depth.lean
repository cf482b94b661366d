import LispMachine.Value

/-!
# The nesting depth of values

Lists can be nested only so deep. The depth of a value is found by a loop over the parts that are
still to be visited, each with the number of lists around it, so that a deeply nested value needs no
deep recursion. Lists count, code blocks of closures do not.
-/

namespace LispMachine

/-- The deepest list that `CONS` builds. -/
def maxDataDepth : Nat := 256

namespace Value

mutual
/-- How many parts a value has, itself included. -/
def size : Value → Nat
  | .list items => 1 + sizes items
  | _ => 1
/-- How many parts the values of a list have together. -/
def sizes : List Value → Nat
  | [] => 0
  | v :: vs => v.size + sizes vs
end

/-- A value that is to be visited, and the number of lists around it. -/
abbrev Part := Value × Nat

/-- How many parts are to be visited in all. -/
def pendingSize : List Part → Nat
  | [] => 0
  | part :: rest => part.1.size + pendingSize rest

/-- The items of a list as parts, with so many lists around each. -/
def partsOf (items : List Value) (level : Nat) : List Part := items.map (·, level)

theorem pendingSize_append (xs ys : List Part) :
    pendingSize (xs ++ ys) = pendingSize xs + pendingSize ys := by
  induction xs with
  | nil => simp [pendingSize]
  | cons x xs ih => simp [pendingSize, ih]; omega

theorem pendingSize_partsOf (items : List Value) (level : Nat) :
    pendingSize (partsOf items level) = sizes items := by
  induction items with
  | nil => rfl
  | cons v vs ih =>
    rw [sizes, ← ih]
    rfl

/-- Visits the parts that are left, given the depth found so far. -/
def depthLoop (deepest : Nat) (pending : List Part) : Nat :=
  match pending with
  | [] => deepest
  | (.list items, level) :: rest =>
    depthLoop (max deepest (level + 1)) (partsOf items (level + 1) ++ rest)
  | (.number _, _) :: rest | (.string _, _) :: rest | (.symbol _, _) :: rest
  | (.op _ _, _) :: rest | (.closure _ _, _) :: rest => depthLoop deepest rest
termination_by pendingSize pending
decreasing_by
  · simp only [pendingSize_append, pendingSize_partsOf, pendingSize, size]
    omega
  all_goals
    simp only [pendingSize, size]
    omega

/-- How deep lists are nested in a value: `0` for what is no list, and `1` for a flat list. -/
def depth (v : Value) : Nat := depthLoop 0 [(v, 0)]

end Value

end LispMachine
