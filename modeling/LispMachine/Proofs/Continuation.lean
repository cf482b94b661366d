import LispMachine.Proofs.Outcomes
import LispMachine.Proofs.Running

/-!
# Machines with more code behind

Code that is put behind the outermost code of a machine, which is its code register or what the oldest
saved continuation resumes, is not looked at before the machine has come to the end of its own code.
Until then the machine makes the same steps (`Machine.after_behind`), because what an instruction does
with its operands stays possible, and the same, when the code ends later (`Performs.behind`).

How many steps were made before makes no difference to a machine either (`Machine.after_later`).
-/

namespace LispMachine

section
variable (more : Code)

/-- What stands behind code while continuations are saved: nothing, unless the code is the outermost. -/
def outermost : List DumpEntry → Code
  | [] => more
  | _ :: _ => []

/-- Saved continuations, with more code behind the oldest of them. -/
def dumpBehind : List DumpEntry → List DumpEntry
  | [] => []
  | .call stack env code :: dump => .call stack env (code ++ outermost more dump) :: dumpBehind dump
  | .join code :: dump => .join (code ++ outermost more dump) :: dumpBehind dump

/-- Registers with more code behind the outermost code. -/
def Registers.behind (r : Registers) : Registers :=
  ⟨r.stack, r.env, r.code ++ outermost more r.dump, dumpBehind more r.dump⟩

/-- A machine with more code behind the outermost code. -/
def Machine.behind (m : Machine) : Machine := { m with registers := m.registers.behind more }

end

/-! ## Instructions -/

/-- **An instruction does the same with more code behind.** -/
theorem Performs.behind {store : Store} {op : Opcode} {r r' : Registers} {effect : Effect} (more : Code)
    (h : Performs store op r r' effect) :
    Performs store op (r.behind more) (r'.behind more) effect := by
  cases h with
  | exchange taken given operands counts operandCount exchanges =>
    -- the operands are in front, and what is behind is not looked at
    simp only [Registers.behind, List.append_assoc]
    exact .exchange taken given operands counts operandCount exchanges
  | ap | rap | sel =>
    -- the block that is entered has its caller's code behind it, and no more
    simp only [Registers.behind, outermost, dumpBehind, List.append_nil]
    constructor
  | rtn | join =>
    -- the code that comes back from the dump has more behind it if it is the outermost
    constructor
  | dum => exact .dum
  | defun last => exact .defun last

/-! ## Machines -/

namespace Machine
variable {m m' : Machine} {n : Nat}

theorem next_behind (more : Code) {move : Move} (h : m.next = .ok (some move)) :
    (m.behind more).next = .ok (some { move with registers := move.registers.behind more }) := by
  obtain ⟨⟨stack, env, code, dump⟩, store, steps⟩ := m
  cases code with
  | nil => cases h
  | cons v rest =>
    cases v with
    | op opcode origin =>
      simp only [next] at h
      split at h
      next r effect hperform =>
        cases h
        have hbehind := ((perform_eq_ok_iff.mp hperform).behind more).perform_eq
        simp only [Registers.behind] at hbehind
        simp only [next, behind, Registers.behind, List.cons_append, hbehind]
      next => cases h
    | _ => cases h

/-- Steps are the same with more code behind. -/
theorem after_behind (more : Code) (h : m.after n = some m') :
    (m.behind more).after n = some (m'.behind more) := by
  induction n generalizing m with
  | zero =>
    cases h
    rfl
  | succ n ih =>
    obtain ⟨next, hstep, hnext⟩ := after_eq_some_succ h
    obtain ⟨move, hmove, rfl⟩ := step_eq_some_iff.mp hstep
    have hstep' : (m.behind more).step = .ok (some ((m.advance move).behind more)) :=
      step_eq_some_iff.mpr ⟨_, next_behind more hmove, rfl⟩
    rw [after_succ hstep']
    exact ih hnext

/-- Each step is counted. -/
theorem steps_of_after (h : m.after n = some m') : m'.steps = m.steps + n := by
  induction n generalizing m with
  | zero =>
    cases h
    rfl
  | succ n ih =>
    obtain ⟨next, hstep, hnext⟩ := after_eq_some_succ h
    obtain ⟨move, -, rfl⟩ := step_eq_some_iff.mp hstep
    have hsteps : (m.advance move).steps = m.steps + 1 := rfl
    have hrest := ih hnext
    omega

/-- A machine that has made more steps before. -/
def later (m : Machine) (before : Nat) : Machine := { m with steps := m.steps + before }

/-- Steps are the same, however many were made before. -/
theorem after_later (before : Nat) (h : m.after n = some m') :
    (m.later before).after n = some (m'.later before) := by
  induction n generalizing m with
  | zero =>
    cases h
    rfl
  | succ n ih =>
    obtain ⟨next, hstep, hnext⟩ := after_eq_some_succ h
    obtain ⟨move, hmove, rfl⟩ := step_eq_some_iff.mp hstep
    have hadvance : (m.later before).advance move = (m.advance move).later before := by
      simp only [advance, later, Nat.add_right_comm]
    have hstep' : (m.later before).step = .ok (some ((m.advance move).later before)) :=
      step_eq_some_iff.mpr ⟨move, hmove, hadvance.symm⟩
    rw [after_succ hstep']
    exact ih hnext

end Machine

end LispMachine
