import LispMachine.Machine

/-!
# Runs

A run with a budget goes through the machines that single steps lead to (`after`), and there are three
ways in which it can end: at a machine that is halted, at an instruction that fails, or where the
budget is spent. `runFor_ends` says so of every run. The other direction holds as well: a machine that
is halted or that fails after some steps decides every run with a larger budget.
-/

namespace LispMachine.Machine

/-- The machine after exactly so many steps, if all of them can be made. -/
def after : Nat → Machine → Option Machine
  | 0, m => some m
  | n + 1, m =>
    match m.step with
    | .ok (some next) => after n next
    | _ => none

variable {m m' : Machine}

theorem step_eq_some_iff :
    m.step = .ok (some m') ↔ ∃ move, m.next = .ok (some move) ∧ m' = m.advance move := by
  unfold step
  constructor
  · intro h
    split at h
    next move hnext =>
      cases h
      exact ⟨move, hnext, rfl⟩
    next => cases h
    next => cases h
  · rintro ⟨move, hnext, rfl⟩
    rw [hnext]

/-- A step is what the instruction in front of the code does. -/
theorem step_of_code {op : Opcode} {origin : Option Span} {rest : Code} (hcode : m.code = .op op origin :: rest) :
    m.step = (perform op m.store { m.registers with code := rest }).map fun (r, effect) =>
      some ⟨r, m.store.apply effect, m.steps + 1⟩ := by
  obtain ⟨⟨S, env, code, D⟩, store, steps⟩ := m
  obtain rfl : code = _ := hcode
  simp only [step, next]
  cases perform op store ⟨S, env, rest, D⟩ <;> rfl

theorem next_of_isHalted (h : m.isHalted) : m.next = .ok none := by
  have hcode : m.registers.code = [] := List.isEmpty_iff.mp h
  simp only [next, hcode]

theorem isHalted_of_next (h : m.next = .ok none) : m.isHalted := by
  unfold next at h
  split at h
  next hcode => exact List.isEmpty_iff.mpr hcode
  next => split at h <;> cases h
  next => cases h

theorem after_succ (h : m.step = .ok (some m')) (n : Nat) : m.after (n + 1) = m'.after n := by
  rw [after, h]

theorem after_eq_some_succ {n : Nat} {last : Machine} (h : m.after (n + 1) = some last) :
    ∃ next, m.step = .ok (some next) ∧ next.after n = some last := by
  rw [after] at h
  split at h
  next next hstep => exact ⟨next, hstep, h⟩
  next => cases h

theorem after_add {k : Nat} (h : m.after k = some m') (n : Nat) : m.after (k + n) = m'.after n := by
  induction k generalizing m with
  | zero =>
    cases h
    rw [Nat.zero_add]
  | succ k ih =>
    obtain ⟨next, hstep, hnext⟩ := after_eq_some_succ h
    rw [Nat.add_right_comm, after_succ hstep, ih hnext]

/-- A machine that makes no step: it is halted, or its instruction fails. -/
def Stuck (m : Machine) : Prop := ∀ next, m.step ≠ .ok (some next)

theorem stuck_of_isHalted (h : m.isHalted) : m.Stuck := by
  intro next hstep
  rw [step, next_of_isHalted h] at hstep
  cases hstep

theorem stuck_of_error {e : RuntimeError} (h : m.next = .error e) : m.Stuck := by
  intro next hstep
  rw [step, h] at hstep
  cases hstep

/-- There are no steps behind a machine that makes none. -/
theorem le_of_stuck {k n : Nat} {last : Machine} (hk : m.after k = some m') (hstuck : m'.Stuck)
    (hn : m.after n = some last) : n ≤ k := by
  refine Nat.le_of_not_lt fun hlt => ?_
  have hsplit : n = k + (n - k - 1 + 1) := by omega
  rw [hsplit, after_add hk] at hn
  obtain ⟨next, hstep, -⟩ := after_eq_some_succ hn
  exact hstuck next hstep

/-- Steps come to one machine that makes no more of them. -/
theorem eq_of_stuck {k n : Nat} {last : Machine} (hk : m.after k = some m') (hstuck : m'.Stuck)
    (hn : m.after n = some last) (hlast : last.Stuck) : k = n ∧ m' = last := by
  -- neither may be behind the other
  have hkn : k = n := Nat.le_antisymm (le_of_stuck hn hlast hk) (le_of_stuck hk hstuck hn)
  subst hkn
  rw [hk] at hn
  exact ⟨rfl, Option.some.inj hn⟩

/-! ## Runs with a budget -/

variable (limit : Nat)

theorem runFor_succ {move : Move} (h : m.next = .ok (some move)) (budget : Nat) :
    runFor limit (budget + 1) m = runFor limit budget (m.advance move) := by
  rw [runFor, h]

/-- Steps that can be made are made. -/
theorem runFor_after {k : Nat} (h : m.after k = some m') (budget : Nat) :
    runFor limit (k + budget) m = runFor limit budget m' := by
  induction k generalizing m with
  | zero =>
    cases h
    rw [Nat.zero_add]
  | succ k ih =>
    obtain ⟨next, hstep, hnext⟩ := after_eq_some_succ h
    obtain ⟨move, hmove, rfl⟩ := step_eq_some_iff.mp hstep
    rw [Nat.add_right_comm, runFor_succ limit hmove, ih hnext]

theorem runFor_of_isHalted (h : m.isHalted) (budget : Nat) :
    runFor limit budget m = (.ok m.top, m) := by
  cases budget with
  | zero => rw [runFor, if_pos h]
  | succ budget => rw [runFor, next_of_isHalted h]

/-- A machine that is halted after some steps ends every run that may take them. -/
theorem runFor_of_after_isHalted {k budget : Nat} (hk : m.after k = some m') (hhalt : m'.isHalted)
    (hle : k ≤ budget) : runFor limit budget m = (.ok m'.top, m') := by
  obtain ⟨rest, rfl⟩ := Nat.exists_eq_add_of_le hle
  rw [runFor_after limit hk, runFor_of_isHalted limit hhalt]

/-- An instruction that fails after some steps ends every run that comes to it. -/
theorem runFor_of_after_error {k budget : Nat} {e : RuntimeError} (hk : m.after k = some m')
    (herror : m'.next = .error e) (hlt : k < budget) : runFor limit budget m = (.error e, m') := by
  obtain ⟨rest, rfl⟩ := Nat.exists_eq_add_of_lt hlt
  rw [Nat.add_assoc, runFor_after limit hk, runFor, herror]

/-- The three ways in which a run ends at a machine. -/
inductive Ends (limit budget : Nat) (m : Machine) : RunResult × Machine → Prop
  | halted {k : Nat} {m' : Machine} (hle : k ≤ budget) (hk : m.after k = some m')
      (hhalt : m'.isHalted) : Ends limit budget m (.ok m'.top, m')
  | failed {k : Nat} {m' : Machine} {e : RuntimeError} (hlt : k < budget) (hk : m.after k = some m')
      (herror : m'.next = .error e) : Ends limit budget m (.error e, m')
  | spent {m' : Machine} (hk : m.after budget = some m') (hhalt : ¬ m'.isHalted) :
      Ends limit budget m (.error (.stepLimitExceeded limit), m')

/-- Every run ends in one of the three ways. -/
theorem runFor_ends (budget : Nat) (m : Machine) : Ends limit budget m (runFor limit budget m) := by
  induction budget generalizing m with
  | zero =>
    rw [runFor]
    by_cases hhalt : m.isHalted
    · rw [if_pos hhalt]
      exact .halted (Nat.le_refl 0) rfl hhalt
    · rw [if_neg hhalt]
      exact .spent rfl hhalt
  | succ budget ih =>
    rw [runFor]
    split
    next move hmove =>
      have hstep : m.step = .ok (some (m.advance move)) := step_eq_some_iff.mpr ⟨move, hmove, rfl⟩
      have hrest := ih (m.advance move)
      -- the way in which the rest ends is the way in which the whole ends, one step later
      generalize runFor limit budget (m.advance move) = out at hrest ⊢
      cases hrest with
      | halted hle hk hhalt =>
        exact .halted (Nat.succ_le_succ hle) ((after_succ hstep _).trans hk) hhalt
      | failed hlt hk herror =>
        exact .failed (Nat.succ_lt_succ hlt) ((after_succ hstep _).trans hk) herror
      | spent hk hhalt => exact .spent ((after_succ hstep _).trans hk) hhalt
    next hnone => exact .halted (Nat.zero_le _) rfl (isHalted_of_next hnone)
    next e herror => exact .failed (Nat.succ_pos _) rfl herror

/-- A run leaves a machine that single steps lead to. -/
theorem exists_after_runFor (budget : Nat) (m : Machine) :
    ∃ k, k ≤ budget ∧ m.after k = some (runFor limit budget m).2 := by
  have hends := runFor_ends limit budget m
  generalize runFor limit budget m = out at hends ⊢
  cases hends with
  | halted hle hk => exact ⟨_, hle, hk⟩
  | failed hlt hk => exact ⟨_, Nat.le_of_lt hlt, hk⟩
  | spent hk => exact ⟨_, Nat.le_refl _, hk⟩

end LispMachine.Machine
