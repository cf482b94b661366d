import LispMachine.Value.Depth

/-!
# Depth by structure

The depth of a value is computed by a loop over the parts that are still to be visited. Here it is
given its structural reading: an atom and a closure have depth `0`, and a list is one deeper than the
deepest of its items. `depth_eq_nesting` says that the loop computes it, so every law of depths can be
proved by induction on values.
-/

namespace LispMachine.Value

mutual
/-- The depth of a value, by recursion on it. -/
def nesting : Value → Nat
  | .list items => nestings items + 1
  | _ => 0
/-- The depth of the deepest of some values. -/
def nestings : List Value → Nat
  | [] => 0
  | v :: vs => max v.nesting (nestings vs)
end

/-- The depth that the parts still to be visited lead to: each adds the number of lists around it. An
atom inside `k` lists shows no list deeper than those `k`, which are counted where they are opened. -/
def reach : List Part → Nat
  | [] => 0
  | (v, level) :: rest => max (if v.nesting = 0 then 0 else level + v.nesting) (reach rest)

theorem reach_append (xs ys : List Part) : reach (xs ++ ys) = max (reach xs) (reach ys) := by
  induction xs with
  | nil => simp [reach]
  | cons x xs ih => simp only [List.cons_append, reach, ih, Nat.max_assoc]

theorem reach_partsOf (items : List Value) (level : Nat) :
    max (level + 1) (reach (partsOf items (level + 1))) = level + 1 + nestings items := by
  induction items with
  | nil => simp [partsOf, reach, nestings]
  | cons v vs ih =>
    simp only [partsOf, List.map_cons, reach, nestings] at ih ⊢
    split <;> omega

/-- The loop adds to what it has found whatever the pending parts lead to. -/
theorem depthLoop_eq (deepest : Nat) (pending : List Part) :
    depthLoop deepest pending = max deepest (reach pending) := by
  fun_induction depthLoop deepest pending with
  | case1 deepest => simp [reach]
  | case2 deepest items level rest ih =>
    have hparts := reach_partsOf items level
    rw [ih, reach_append, reach, nesting, if_neg (Nat.succ_ne_zero _)]
    omega
  | case3 _ _ _ _ ih | case4 _ _ _ _ ih | case5 _ _ _ _ ih => simp [ih, reach, nesting]
  | case6 _ _ _ _ _ ih | case7 _ _ _ _ _ ih => simp [ih, reach, nesting]

/-- The loop over pending parts computes the structural depth. -/
theorem depth_eq_nesting (v : Value) : v.depth = v.nesting := by
  rw [depth, depthLoop_eq]
  simp only [reach]
  split <;> omega

/-- A value at the head of a list lies one deeper in it, and the rest as deep as before. -/
theorem depth_cons (v : Value) (vs : List Value) :
    depth (.list (v :: vs)) = max (v.depth + 1) (depth (.list vs)) := by
  simp only [depth_eq_nesting, nesting, nestings]
  omega

end LispMachine.Value
