import LispMachine.Proofs.Running
import LispMachine.Proofs.Nesting
import LispMachine.Proofs.Primitive

/-!
# Walks over the parts of values

The loop that finds the depth of a value keeps the parts it has still to visit, and visits one in each round. It
does not matter in which order: a round of a walk (`Walk.Round`) takes any of the parts. Each round has one part
less to visit in all, counted with the parts of parts (`Walk.Round.size_eq`), and leaves the depth that the walk
leads to as it is (`Walk.Round.reach_eq`). So all walks over a value take as many rounds as the value has parts,
and end with its structural depth. The loop is one of these walks (`Walk.rounds_depthLoop`).

The depth of a list follows from its head and its tail, and so does the depth of what `CONS` builds.
-/

namespace LispMachine

open Value

/-- How far a walk over the parts of a value has come: the depth found so far, and the parts to be visited. -/
structure Walk where
  deepest : Nat
  pending : List Part

namespace Walk

/-- A walk at its start. -/
def start (v : Value) : Walk := ⟨0, [(v, 0)]⟩

/-- One round: a part is taken from among the parts to be visited. A list is counted with the lists around it, and
its items are to be visited in its place. -/
inductive Round : Walk → Walk → Prop
  | list (deepest level : Nat) (items : List Value) (before after : List Part) :
    Round ⟨deepest, before ++ (.list items, level) :: after⟩
      ⟨max deepest (level + 1), before ++ (partsOf items (level + 1) ++ after)⟩
  | other {v : Value} (deepest level : Nat) (before after : List Part) (hv : v.items? = none) :
    Round ⟨deepest, before ++ (v, level) :: after⟩ ⟨deepest, before ++ after⟩

/-- So many rounds. -/
inductive Rounds : Nat → Walk → Walk → Prop
  | zero (w : Walk) : Rounds 0 w w
  | succ {n : Nat} {w w' w'' : Walk} (h : w.Round w') (hs : Rounds n w' w'') : Rounds (n + 1) w w''

section
variable {w w' : Walk} {n : Nat} {v : Value}

/-- What is no list has one part and no depth. -/
theorem size_of_items? (hv : v.items? = none) : v.size = 1 ∧ v.nesting = 0 := by
  cases v with
  | list items => cases hv
  | _ => exact ⟨rfl, rfl⟩

/-- There is a round as long as there is a part to visit. -/
theorem exists_round (h : w.pending ≠ []) : ∃ w', w.Round w' := by
  obtain ⟨deepest, pending⟩ := w
  obtain ⟨⟨v, level⟩, rest, hpending⟩ := List.exists_cons_of_ne_nil h
  cases (show pending = _ from hpending)
  cases v with
  | list items => exact ⟨_, .list deepest level items [] rest⟩
  | _ => exact ⟨_, .other deepest level [] rest rfl⟩

/-- Each round leaves one part less to visit. -/
theorem Round.size_eq (h : w.Round w') : pendingSize w'.pending + 1 = pendingSize w.pending := by
  cases h with
  | list =>
    simp only [pendingSize_append, pendingSize_partsOf, pendingSize, size]
    omega
  | other _ _ _ _ hv =>
    simp only [pendingSize_append, pendingSize, (size_of_items? hv).1]
    omega

/-- No round changes the depth that a walk leads to. -/
theorem Round.reach_eq (h : w.Round w') : max w'.deepest (reach w'.pending) = max w.deepest (reach w.pending) := by
  cases h with
  | list deepest level items before after =>
    have hparts := reach_partsOf items level
    simp only [reach_append, reach, nesting, Nat.add_one_ne_zero, if_false]
    omega
  | other _ _ _ _ hv => simp only [reach_append, reach, (size_of_items? hv).2, if_pos, Nat.zero_max]

theorem Rounds.size_eq (h : Rounds n w w') : n + pendingSize w'.pending = pendingSize w.pending := by
  induction h with
  | zero => exact Nat.zero_add _
  | succ h _ ih =>
    have hround := h.size_eq
    omega

theorem Rounds.reach_eq (h : Rounds n w w') :
    max w'.deepest (reach w'.pending) = max w.deepest (reach w.pending) := by
  induction h with
  | zero => rfl
  | succ h _ ih => rw [ih, h.reach_eq]

/-- A round goes in front of a walk that visits all that is left. -/
theorem Round.then_rest {w'' : Walk} (h : w.Round w') (hs : Rounds (pendingSize w'.pending) w' w'') :
    Rounds (pendingSize w.pending) w w'' :=
  h.size_eq ▸ .succ h hs

/-- A walk with nothing left to visit has found what the loop finds. -/
theorem Rounds.deepest_eq (h : Rounds n w w') (hdone : w'.pending = []) :
    w'.deepest = depthLoop w.deepest w.pending := by
  have hreach := h.reach_eq
  rw [hdone, reach, Nat.max_zero] at hreach
  rw [hreach, depthLoop_eq]

end

/-- The loop is a walk that takes the first part in each round. -/
theorem rounds_depthLoop (deepest : Nat) (pending : List Part) :
    Rounds (pendingSize pending) ⟨deepest, pending⟩ ⟨depthLoop deepest pending, []⟩ := by
  fun_induction depthLoop deepest pending with
  | case1 deepest => exact .zero _
  | case2 deepest items level rest ih => exact (Round.list deepest level items [] rest).then_rest ih
  | case3 deepest _ level rest ih | case4 deepest _ level rest ih | case5 deepest _ level rest ih
  | case6 deepest _ _ level rest ih | case7 deepest _ _ level rest ih =>
    exact Round.then_rest (.other deepest level [] rest rfl) ih

end Walk

/-- `CONS` builds the list unless its head is as deep as lists may be. -/
theorem Machine.step_cons {m : Machine} {origin : Option Span} {rest : Code} {head : Value}
    {tail stack : List Value} (hcode : m.code = .op .cons origin :: rest)
    (hstack : m.stack = head :: .list tail :: stack) :
    m.step = if maxDataDepth ≤ head.depth then .error (.dataTooDeep .cons maxDataDepth)
      else .ok (some ⟨{ m.registers with stack := .list (head :: tail) :: stack, code := rest }, m.store,
        m.steps + 1⟩) := by
  obtain ⟨⟨S, env, code, dump⟩, store, steps⟩ := m
  cases (show S = _ from hstack)
  rw [step_of_code hcode, perform_cons_list]
  split <;> rfl

/-- **The depth of a value is its structural depth.** However a walk over a value goes, it has as many rounds as the
value has parts: it goes on until no part is left to visit, and then it has found the depth of the value. The loop
is such a walk. What `CONS` builds is as deep as its tail, or one deeper than its head if that is more. -/
theorem depth_is_structural (v : Value) :
    v.depth = v.nesting ∧
    Walk.Rounds v.size (.start v) ⟨v.depth, []⟩ ∧
    (∀ n w, Walk.Rounds n (.start v) w → n + Value.pendingSize w.pending = v.size ∧
      (w.pending ≠ [] → ∃ w', w.Round w') ∧ (w.pending = [] → n = v.size ∧ w.deepest = v.depth)) ∧
    ∀ (m : Machine) (origin : Option Span) (rest : Code) (tail stack : List Value),
      m.code = .op .cons origin :: rest → m.stack = v :: .list tail :: stack →
      (Value.list (v :: tail)).depth = max (Value.list tail).depth (1 + v.depth) ∧
      m.step = if maxDataDepth ≤ v.depth then .error (.dataTooDeep .cons maxDataDepth)
        else .ok (some ⟨{ m.registers with stack := .list (v :: tail) :: stack, code := rest }, m.store,
          m.steps + 1⟩) := by
  have hsize : pendingSize (Walk.start v).pending = v.size := Nat.add_zero _
  -- any walk uses up the parts one by one, and leads to the depth that it started with
  refine ⟨depth_eq_nesting v, hsize ▸ Walk.rounds_depthLoop 0 [(v, 0)], fun n w hrounds => ?_, ?_⟩
  · have hleft : n + pendingSize w.pending = v.size := hrounds.size_eq.trans hsize
    refine ⟨hleft, Walk.exists_round, fun hdone => ⟨?_, hrounds.deepest_eq hdone⟩⟩
    rw [← hleft, hdone]
    rfl
  · intro m origin rest tail stack hcode hstack
    refine ⟨?_, Machine.step_cons hcode hstack⟩
    rw [depth_cons, Nat.max_comm, Nat.add_comm]

/-- A list that holds a list is put before a flat list. -/
theorem nested_list_is_prepended :
    ∃ (v : Value) (m m' : Machine), v = .list [.list [.number 1], .number 2] ∧
      m.code = [.op .cons none] ∧ m.stack = [v, .list [.number 3]] ∧ Walk.Rounds 4 (.start v) ⟨2, []⟩ ∧
      m.step = .ok (some m') ∧ m'.stack = [.list [v, .number 3]] ∧ (Value.list [v, .number 3]).depth = 3 := by
  let v : Value := .list [.list [.number 1], .number 2]
  let m : Machine := ⟨⟨[v, .list [.number 3]], [], [.op .cons none], []⟩, .empty, 0⟩
  obtain ⟨hnesting, hwalk, -, hcons⟩ := depth_is_structural v
  obtain ⟨hdepth, hstep⟩ := hcons m none [] [.number 3] [] rfl rfl
  have hv : v.depth = 2 := hnesting
  have htail : (Value.list [.number 3]).depth = 1 := depth_eq_nesting _
  rw [hv] at hwalk hdepth hstep
  rw [htail] at hdepth
  exact ⟨v, m, _, rfl, rfl, rfl, hwalk, hstep.trans (if_neg (by decide)), rfl, hdepth⟩

end LispMachine
