import LispMachine.Machine.Driving
import LispMachine.Proofs.Agreement
import LispMachine.Proofs.Outcomes

/-!
# All ways of driving a machine agree

Calls for one instruction after the other (`calls`) are what every run is made of. A run with a budget
ends at a machine that is halted, at an instruction that fails, or where the budget is spent, and what the
calls report tells which (`runWithin_ok_iff`, `runWithin_spent_iff`). Hence budgets can be split
(`runWithin_add`), a run without a budget comes to the same end (`runToEnd_eq_some_iff`), and an observer
changes nothing and is shown the events of the instructions that were executed, one each
(`runBounded_observed`, `events_getElem?_iff`).

Everything about a run with a budget is proved by `run_induction`, which has a case for each way to go on.
The case of a failing instruction needs that the error does not look like a budget that is spent. For that the
instructions need not be gone through: all they can complain about is listed in `Aborts`
(`Aborts.not_isLimit`).

The runs here are those that take from the registers what a failing instruction takes. They are the runs
of `runWithLimit` but for that (`runWithin_eq`). They leave the same frames wherever nothing but the data of a
program can fail (`runWithin_store`), since of the instructions that fail only a `RAP` that has no frame to
leave has filled one before.
-/

namespace LispMachine

/-! ## No instruction says that the steps are spent

An error of that kind can come from the budget only. So a limit may be put in place of another in the errors
of a run, and nothing else changes.
-/

/-- An error that names another number of steps, if it says that they are spent. -/
def RuntimeError.withLimit (limit : Nat) : RuntimeError → RuntimeError
  | stepLimitExceeded _ => .stepLimitExceeded limit
  | e => e

theorem RuntimeError.withLimit_of_not_isLimit {e : RuntimeError} (h : ¬ e.isLimit) (limit : Nat) :
    e.withLimit limit = e := by
  cases e with
  | stepLimitExceeded n => exact absurd rfl h
  | _ => rfl

/-- A computation that may fail, but not because the steps are spent. -/
def Unlimited {α : Type} (x : Except RuntimeError α) : Prop := ∀ e, x = .error e → ¬ e.isLimit

namespace Unlimited
variable {α : Type}

theorem ok (a : α) : Unlimited (.ok a) := by
  intro e h
  cases h

theorem error {e : RuntimeError} (h : ¬ e.isLimit) : Unlimited (.error e : Except RuntimeError α) := by
  intro e' h'
  cases h'
  exact h

/-- The number of steps in an error is of no importance where no error is about steps. -/
theorem mapError_withLimit {x : Except RuntimeError α} (hx : Unlimited x) (limit : Nat) :
    x.mapError (·.withLimit limit) = x := by
  cases x with
  | ok a => rfl
  | error e => exact congrArg Except.error (RuntimeError.withLimit_of_not_isLimit (hx e rfl) limit)

end Unlimited

/-- A variable without a value is none because of steps. -/
theorem Store.load_unlimited (store : Store) (env : Environment) (depth offset : Number) :
    Unlimited (store.load env depth offset) := by
  unfold Store.load
  split
  · exact .error Bool.false_ne_true
  · simp only
    split
    · exact .error Bool.false_ne_true
    · split
      · exact .error Bool.false_ne_true
      · exact .ok _

theorem Opcode.calculation_unlimited {op : Opcode} {f : Number → Number → Except RuntimeError Number}
    (h : op.calculation? = some f) (left right : Number) : Unlimited (f left right) := by
  have hfits : ∀ op n, Unlimited (Number.orOverflow op n) := by
    intro op n
    cases n with
    | none => exact .error Bool.false_ne_true
    | some n => exact .ok n
  cases op with
  | add | sub | mul =>
    cases h
    exact hfits _ _
  | div =>
    cases h
    simp only
    split
    · exact .error Bool.false_ne_true
    · exact hfits _ _
  | eq | ne | lt | le | ht | he | and | or =>
    cases h
    exact .ok _
  | _ => cases h

theorem Registers.not_isLimit_of_lack {op : Opcode} {r : Registers} {ts : List Taking} {e : RuntimeError}
    (h : r.lack? op ts = some e) : ¬ e.isLimit := by
  have hcomplaint : ∀ t r, ¬ (Registers.complaint op r t).isLimit := by
    intro t r
    obtain ⟨stack, env, code, dump⟩ := r
    cases t with
    -- each taking has a complaint of its own, about what is missing or of the wrong kind
    | value | operand | entry => exact Bool.false_ne_true
    | list | number | closure => cases stack <;> exact Bool.false_ne_true
    | block | index => cases code <;> exact Bool.false_ne_true
  induction ts generalizing r with
  | nil => cases h
  | cons t ts ih =>
    rw [lack?] at h
    split at h
    · exact ih h
    · cases h
      exact hcomplaint t r

/-- An instruction fails for reasons of its own. -/
theorem Aborts.not_isLimit {store : Store} {op : Opcode} {r : Registers} {e : RuntimeError}
    (h : Aborts store op r e) : ¬ e.isLimit := by
  cases h with
  | lacks first => exact Registers.not_isLimit_of_lack first
  | refuses refuses =>
    cases refuses with
    | ld missing => exact Store.load_unlimited _ _ _ _ e missing
    | numbers calculates result => exact Opcode.calculation_unlimited calculates _ _ e result
    | rap | rtn | join | cons | pair | defun => exact Bool.false_ne_true

/-- Only a `RAP` with no frame to leave fails and has done something to the store, and that is a fault of the
code. -/
theorem Aborts.leftover_eq_keep {store : Store} {op : Opcode} {r : Registers} {e : RuntimeError}
    (h : Aborts store op r e) (hdata : e.isOfData) : r.leftover op = .keep := by
  obtain ⟨stack, env, code, dump⟩ := r
  unfold Registers.leftover
  split
  next =>
    split
    next block dummy captured args S hstack henv =>
      obtain rfl : stack = _ := hstack
      obtain rfl : env = _ := henv
      have hrap : Refuses store .rap ⟨.closure block (dummy :: captured) :: .list args :: S, [], code, dump⟩
          (.frameOutOfRange .rap 0 0) := .rap (.inr rfl)
      rw [h.unique (.refuses hrap)] at hdata
      cases hdata
    next => rfl
  next => rfl

theorem Unlimited.next (m : Machine) : Unlimited m.next := by
  intro e h
  obtain ⟨op, origin, r, -, haborts⟩ | ⟨v, rfl⟩ := Machine.aborts_of_next h
  · exact haborts.not_isLimit
  · exact Bool.false_ne_true

namespace Machine
variable {m m' : Machine}

/-- The next instruction of a machine that is not halted fails or is executed. -/
theorem next_cases (m : Machine) :
    m.isHalted ∨ (∃ e, m.next = .error e) ∨ ∃ move, m.next = .ok (some move) := by
  cases hnext : m.next with
  | error e => exact .inr (.inl ⟨e, rfl⟩)
  | ok decided =>
    cases decided with
    | none => exact .inl (isHalted_of_next hnext)
    | some move => exact .inr (.inr ⟨move, rfl⟩)

theorem not_isHalted_of_move {move : Move} (h : m.next = .ok (some move)) : ¬ m.isHalted := by
  intro hhalt
  rw [next_of_isHalted hhalt] at h
  cases h

theorem not_isHalted_of_error {e : RuntimeError} (h : m.next = .error e) : ¬ m.isHalted := by
  intro hhalt
  rw [next_of_isHalted hhalt] at h
  cases h

/-- Induction on a run with a budget, with a case for each way to go on: the machine is halted, the budget
is spent before it is, its next instruction fails, or that is executed and the run goes on. -/
@[elab_as_elim]
theorem run_induction {motive : Nat → Machine → Prop}
    (halted : ∀ budget m, m.isHalted → motive budget m)
    (spent : ∀ m, ¬ m.isHalted → motive 0 m)
    (failed : ∀ budget m e, m.next = .error e → motive (budget + 1) m)
    (moved : ∀ budget m move, m.next = .ok (some move) → motive budget (m.advance move) →
      motive (budget + 1) m)
    (budget : Nat) (m : Machine) : motive budget m := by
  induction budget generalizing m with
  | zero =>
    by_cases hhalt : m.isHalted
    · exact halted 0 m hhalt
    · exact spent m hhalt
  | succ budget ih =>
    obtain hhalt | ⟨e, hnext⟩ | ⟨move, hnext⟩ := m.next_cases
    · exact halted (budget + 1) m hhalt
    · exact failed budget m e hnext
    · exact moved budget m move hnext (ih (m.advance move))

/-! ## Calls

Calling for one instruction after the other is the finest way to drive a machine, and goes on behind errors.
All other ways are compared with it.
-/

/-- What calls for one instruction after the other report, and the machine behind them. There are calls
behind a failing one as well. -/
def calls : Nat → Machine → List (Except RuntimeError StepOutcome) × Machine
  | 0, m => ([], m)
  | n + 1, m =>
    let (outcome, next) := m.call
    let (outcomes, last) := calls n next
    (outcome :: outcomes, last)

theorem call_of_move {move : Move} (h : m.next = .ok (some move)) :
    m.call = (.ok .executed, m.advance move) := by
  rw [call, execute, h]

theorem call_of_isHalted (h : m.isHalted) : m.call = (.ok .halted, m) := by
  rw [call, execute, next_of_isHalted h]

theorem call_of_error {e : RuntimeError} (h : m.next = .error e) : m.call = (.error e, m.failed) := by
  rw [call, execute, h]

theorem call_eq_executed_iff : m.call = (.ok .executed, m') ↔ m.step = .ok (some m') := by
  rw [step_eq_some_iff]
  constructor
  · intro h
    -- the three ways to go on report three different things
    obtain hhalt | ⟨e, hnext⟩ | ⟨move, hnext⟩ := m.next_cases
    · rw [call_of_isHalted hhalt] at h
      cases h
    · rw [call_of_error hnext] at h
      cases h
    · rw [call_of_move hnext] at h
      cases h
      exact ⟨move, hnext, rfl⟩
  · rintro ⟨move, hnext, rfl⟩
    exact call_of_move hnext

theorem call_eq_halted_iff : m.call = (.ok .halted, m') ↔ m.isHalted ∧ m' = m := by
  constructor
  · intro h
    obtain hhalt | ⟨e, hnext⟩ | ⟨move, hnext⟩ := m.next_cases
    · rw [call_of_isHalted hhalt] at h
      cases h
      exact ⟨hhalt, rfl⟩
    · rw [call_of_error hnext] at h
      cases h
    · rw [call_of_move hnext] at h
      cases h
  · rintro ⟨hhalt, rfl⟩
    exact call_of_isHalted hhalt

theorem calls_cons_iff {n : Nat} {outcome : Except RuntimeError StepOutcome}
    {outcomes : List (Except RuntimeError StepOutcome)} :
    m.calls (n + 1) = (outcome :: outcomes, m') ↔
      ∃ next, m.call = (outcome, next) ∧ next.calls n = (outcomes, m') := by
  constructor
  · intro h
    cases h
    exact ⟨m.call.2, rfl, rfl⟩
  · rintro ⟨next, hcall, hcalls⟩
    rw [calls, hcall]
    simp only [hcalls]

/-- Calls that all execute something are steps. -/
theorem calls_executed_iff {n : Nat} :
    m.calls n = (List.replicate n (.ok .executed), m') ↔ m.after n = some m' := by
  induction n generalizing m with
  | zero => simp [calls, after]
  | succ n ih =>
    rw [List.replicate_succ, calls_cons_iff]
    constructor
    · rintro ⟨next, hcall, hcalls⟩
      rw [after_succ (call_eq_executed_iff.mp hcall)]
      exact ih.mp hcalls
    · intro h
      obtain ⟨next, hstep, hnext⟩ := after_eq_some_succ h
      exact ⟨next, call_eq_executed_iff.mpr hstep, ih.mpr hnext⟩

/-- Calls of which the last finds the machine halted are steps to a halted machine. -/
theorem calls_halted_iff {n : Nat} :
    m.calls (n + 1) = (List.replicate n (.ok .executed) ++ [.ok .halted], m') ↔
      m.after n = some m' ∧ m'.isHalted := by
  induction n generalizing m with
  | zero =>
    rw [List.replicate_zero, List.nil_append, calls_cons_iff]
    constructor
    · rintro ⟨next, hcall, hcalls⟩
      obtain ⟨hhalt, rfl⟩ := call_eq_halted_iff.mp hcall
      cases hcalls
      exact ⟨rfl, hhalt⟩
    · rintro ⟨hafter, hhalt⟩
      cases hafter
      exact ⟨m', call_of_isHalted hhalt, rfl⟩
  | succ n ih =>
    rw [List.replicate_succ, List.cons_append, calls_cons_iff]
    constructor
    · rintro ⟨next, hcall, hcalls⟩
      rw [after_succ (call_eq_executed_iff.mp hcall)]
      exact ih.mp hcalls
    · rintro ⟨hafter, hhalt⟩
      obtain ⟨next, hstep, hnext⟩ := after_eq_some_succ hafter
      exact ⟨next, call_eq_executed_iff.mpr hstep, ih.mpr ⟨hnext, hhalt⟩⟩

/-! ## Runs with a budget

A run executes what as many calls execute, up to the first one that fails. Whether it is observed makes no
difference to the machine.
-/

section
variable {σ : Type} (observer : Option (σ → StepEvent → σ)) (limit : Nat) (seen : σ)

theorem runBounded_of_isHalted (h : m.isHalted) (budget : Nat) :
    runBounded observer limit budget seen m = (.ok m.top, seen, m) := by
  rw [runBounded.eq_def, if_pos h]

theorem runBounded_zero (h : ¬ m.isHalted) :
    runBounded observer limit 0 seen m = (.error (.stepLimitExceeded limit), seen, m) := by
  rw [runBounded, if_neg h]

theorem runBounded_of_error {e : RuntimeError} (h : m.next = .error e) (budget : Nat) :
    runBounded observer limit (budget + 1) seen m = (.error e, seen, m.failed) := by
  rw [runBounded, if_neg (not_isHalted_of_error h)]
  simp only [execute, h]

theorem runBounded_of_move {move : Move} (h : m.next = .ok (some move)) (budget : Nat) :
    runBounded observer limit (budget + 1) seen m =
      runBounded observer limit budget
        (observer.elim seen (· seen ((m.advance move).event move))) (m.advance move) := by
  rw [runBounded, if_neg (not_isHalted_of_move h)]
  simp only [execute, h]

end

theorem steps_advance (m : Machine) (move : Move) : (m.advance move).steps = m.steps + 1 := rfl

theorem steps_failed (m : Machine) : m.failed.steps = m.steps := by
  unfold failed
  split
  · rfl
  · simp only
    split <;> rfl

/-- What a run with this result leaves of the machine that it came to. -/
def leftBy (m : Machine) : RunResult → Machine
  | .ok _ => m
  | .error e => if e.isLimit then m else m.failed

theorem leftBy_of_next {e : RuntimeError} (h : m.next = .error e) : m.leftBy (.error e) = m.failed := by
  rw [leftBy, if_neg (Unlimited.next m e h)]

theorem runBounded_eq (limit budget : Nat) (m : Machine) :
    runBounded none limit budget () m =
      ((runFor limit budget m).1, (), (runFor limit budget m).2.leftBy (runFor limit budget m).1) := by
  induction budget, m using run_induction with
  | halted budget m hhalt =>
    rw [runBounded_of_isHalted _ _ _ hhalt, runFor_of_isHalted limit hhalt]
    rfl
  | spent m hhalt =>
    rw [runBounded_zero _ _ _ hhalt, runFor, if_neg hhalt]
    rfl
  | failed budget m e hnext =>
    rw [runBounded_of_error _ _ _ hnext, runFor, hnext, leftBy_of_next hnext]
  | moved budget m move hnext ih =>
    rw [runBounded_of_move _ _ _ hnext, runFor_succ limit hnext]
    exact ih

/-- **A run differs from one that leaves failing machines unchanged in nothing but a failing machine.** -/
theorem runWithin_eq (m : Machine) (n : Nat) :
    m.runWithin n = ((m.runWithLimit n).1, (m.runWithLimit n).2.leftBy (m.runWithLimit n).1) := by
  rw [runWithin, runBounded_eq]
  rfl

/-- An instruction that fails because of the data of a program has left the frames alone. -/
theorem store_failed {e : RuntimeError} (h : m.next = .error e) (hdata : e.isOfData) :
    m.failed.store = m.store := by
  obtain ⟨op, origin, r, hregisters, haborts⟩ | ⟨v, rfl⟩ := aborts_of_next h
  · obtain ⟨registers, store, steps⟩ := m
    obtain rfl : registers = _ := hregisters
    show store.apply (r.leftover op) = store
    rw [haborts.leftover_eq_keep hdata, Store.apply]
  · cases hdata

/-- Where nothing but data fails, the two runs leave the same frames. -/
theorem runWithin_store (hdata : ∀ k m', m.after k = some m' → ∀ e, m'.next = .error e → e.isOfData)
    (n : Nat) : (m.runWithin n).2.store = (m.runWithLimit n).2.store := by
  rw [runWithin_eq, runWithLimit]
  have hends := runFor_ends n n m
  generalize runFor n n m = out at hends ⊢
  cases hends with
  | halted => rfl
  | failed hlt hk herror =>
    rw [leftBy_of_next herror]
    exact store_failed herror (hdata _ _ hk _ herror)
  | spent => rfl

/-- A run gives a result if and only if it comes to a machine that is halted. -/
theorem runWithin_ok_iff {n : Nat} {r : Option Value} :
    m.runWithin n = (.ok r, m') ↔ ∃ k ≤ n, m.after k = some m' ∧ m'.isHalted ∧ r = m'.top := by
  rw [runWithin_eq, runWithLimit]
  constructor
  · intro h
    have hends := runFor_ends n n m
    generalize runFor n n m = out at h hends
    cases hends with
    | halted hle hk hhalt =>
      cases h
      exact ⟨_, hle, hk, hhalt, rfl⟩
    | failed hlt hk herror => cases h
    | spent hk hhalt => cases h
  · rintro ⟨k, hle, hk, hhalt, rfl⟩
    rw [runFor_of_after_isHalted n hk hhalt hle]
    rfl

/-- A run says that its steps are spent if and only if all of them were made, and did not suffice. -/
theorem runWithin_spent_iff {n limit : Nat} :
    m.runWithin n = (.error (.stepLimitExceeded limit), m') ↔
      limit = n ∧ m.after n = some m' ∧ ¬ m'.isHalted := by
  rw [runWithin_eq, runWithLimit]
  constructor
  · intro h
    have hends := runFor_ends n n m
    generalize runFor n n m = out at h hends
    cases hends with
    | halted hle hk hhalt => cases h
    | failed hlt hk herror =>
      have he := Except.error.inj (Prod.mk.inj h).1
      subst he
      exact absurd rfl (Unlimited.next _ _ herror)
    | spent hk hhalt =>
      cases h
      exact ⟨rfl, hk, hhalt⟩
  · rintro ⟨rfl, hk, hhalt⟩
    have hrun := runFor_after limit hk 0
    rw [Nat.add_zero] at hrun
    rw [hrun, runFor, if_neg hhalt]
    rfl

/-- The limit is named in an error, and else makes no difference. -/
theorem runBounded_limit (limit limit' budget : Nat) (m : Machine) :
    runBounded none limit' budget () m =
      ((runBounded none limit budget () m).1.mapError (·.withLimit limit'), (),
        (runBounded none limit budget () m).2.2) := by
  induction budget, m using run_induction with
  | halted budget m hhalt =>
    rw [runBounded_of_isHalted _ _ _ hhalt, runBounded_of_isHalted _ _ _ hhalt]
    rfl
  | spent m hhalt =>
    rw [runBounded_zero _ _ _ hhalt, runBounded_zero _ _ _ hhalt]
    rfl
  | failed budget m e hnext =>
    -- a failing instruction does not name a limit, so there is nothing to replace
    have hlimit := RuntimeError.withLimit_of_not_isLimit (Unlimited.next m e hnext) limit'
    rw [runBounded_of_error _ _ _ hnext, runBounded_of_error _ _ _ hnext]
    exact congrArg (fun e => (Except.error e, (), m.failed)) hlimit.symm
  | moved budget m move hnext ih =>
    rw [runBounded_of_move _ _ _ hnext, runBounded_of_move _ _ _ hnext]
    exact ih

/-- Steps that can be made are made, whatever is left of the budget behind them. -/
theorem runBounded_after (limit : Nat) {k : Nat} (h : m.after k = some m') (budget : Nat) :
    runBounded none limit (k + budget) () m = runBounded none limit budget () m' := by
  rw [runBounded_eq, runBounded_eq, runFor_after limit h]

/-- A run that spent its steps goes on as if the steps to come had been allowed at once. -/
theorem runWithin_add {n : Nat} (h : m.after n = some m') (more : Nat) :
    m.runWithin (n + more) =
      ((m'.runWithin more).1.mapError (·.withLimit (n + more)), (m'.runWithin more).2) := by
  rw [runWithin, runBounded_after (n + more) h, runBounded_limit more (n + more)]
  rfl

/-! ## Runs without a budget -/

theorem runToEnd_after {k : Nat} (h : m.after k = some m') : m.runToEnd = m'.runToEnd := by
  induction k generalizing m with
  | zero =>
    cases h
    rfl
  | succ k ih =>
    obtain ⟨next, hstep, hnext⟩ := after_eq_some_succ h
    rw [runToEnd, call_eq_executed_iff.mpr hstep]
    exact ih hnext

theorem runToEnd_of_isHalted (h : m.isHalted) : m.runToEnd = some (.ok m.top, m) := by
  rw [runToEnd, call_of_isHalted h]

theorem runToEnd_of_error {e : RuntimeError} (h : m.next = .error e) :
    m.runToEnd = some (.error e, m.failed) := by
  rw [runToEnd, call_of_error h]

/-- What a run without a budget comes to is what some budget allows. -/
theorem exists_of_runToEnd {out : RunResult × Machine} (h : m.runToEnd = some out) :
    Unlimited out.1 ∧ ∃ n, m.runWithin n = out := by
  -- by induction on a run that ends, since without a budget nothing else gets smaller
  refine runToEnd.partial_correctness (fun m out => Unlimited out.1 ∧ ∃ n, m.runWithin n = out) ?_
    m out h
  intro run ih m out hout
  obtain hhalt | ⟨e, hnext⟩ | ⟨move, hnext⟩ := m.next_cases
  · rw [call_of_isHalted hhalt] at hout
    cases hout
    refine ⟨.ok _, 0, ?_⟩
    rw [runWithin, runBounded_of_isHalted _ _ _ hhalt]
  · rw [call_of_error hnext] at hout
    cases hout
    refine ⟨.error (Unlimited.next m e hnext), 1, ?_⟩
    rw [runWithin, runBounded_of_error _ _ _ hnext]
  · rw [call_of_move hnext] at hout
    -- one step more than suffices for the rest of the run
    obtain ⟨hunlimited, n, hrun⟩ := ih _ _ hout
    have hafter : m.after 1 = some (m.advance move) :=
      after_succ (step_eq_some_iff.mpr ⟨move, hnext, rfl⟩) 0
    refine ⟨hunlimited, 1 + n, ?_⟩
    rw [runWithin_add hafter, hrun, hunlimited.mapError_withLimit]

/-- **A run without a budget comes to an end if and only if some budget suffices**, and to the same. -/
theorem runToEnd_eq_some_iff {out : RunResult × Machine} :
    m.runToEnd = some out ↔ Unlimited out.1 ∧ ∃ n, m.runWithin n = out := by
  refine ⟨exists_of_runToEnd, ?_⟩
  rintro ⟨hunlimited, n, rfl⟩
  rw [runWithin_eq, runWithLimit] at hunlimited ⊢
  have hends := runFor_ends n n m
  generalize runFor n n m = out at hunlimited hends ⊢
  cases hends with
  | halted hle hk hhalt => rw [runToEnd_after hk, runToEnd_of_isHalted hhalt, leftBy]
  | failed hlt hk herror => rw [runToEnd_after hk, runToEnd_of_error herror, leftBy_of_next herror]
  | spent hk hhalt => exact absurd rfl (hunlimited _ rfl)

/-! ## Observed runs -/

/-- The events of the instructions that at most so many steps execute. -/
def events : Nat → Machine → List StepEvent
  | 0, _ => []
  | n + 1, m =>
    match m.next with
    | .ok (some move) => (m.advance move).event move :: events n (m.advance move)
    | _ => []

theorem events_succ {move : Move} (h : m.next = .ok (some move)) (n : Nat) :
    m.events (n + 1) = (m.advance move).event move :: (m.advance move).events n := by
  rw [events, h]

theorem events_of_isHalted (h : m.isHalted) (n : Nat) : m.events n = [] := by
  cases n with
  | zero => rfl
  | succ n => rw [events, next_of_isHalted h]

theorem events_of_error {e : RuntimeError} (h : m.next = .error e) (n : Nat) : m.events n = [] := by
  cases n with
  | zero => rfl
  | succ n => rw [events, h]

/-- An observer changes nothing, and is shown the events one after the other. -/
theorem runBounded_observed {σ : Type} (observe : σ → StepEvent → σ) (limit budget : Nat) (seen : σ)
    (m : Machine) :
    runBounded (some observe) limit budget seen m =
      ((runBounded none limit budget () m).1, (m.events budget).foldl observe seen,
        (runBounded none limit budget () m).2.2) := by
  induction budget, m using run_induction generalizing seen with
  | halted budget m hhalt =>
    rw [runBounded_of_isHalted _ _ _ hhalt, runBounded_of_isHalted _ _ _ hhalt, events_of_isHalted hhalt]
    rfl
  | spent m hhalt =>
    rw [runBounded_zero _ _ _ hhalt, runBounded_zero _ _ _ hhalt]
    rfl
  | failed budget m e hnext =>
    rw [runBounded_of_error _ _ _ hnext, runBounded_of_error _ _ _ hnext, events_of_error hnext]
    rfl
  | moved budget m move hnext ih =>
    rw [runBounded_of_move _ _ _ hnext, runBounded_of_move _ _ _ hnext, events_succ hnext]
    exact ih _

/-- A run counts the instructions that have an event. -/
theorem steps_runBounded (limit budget : Nat) (m : Machine) :
    (runBounded none limit budget () m).2.2.steps = m.steps + (m.events budget).length := by
  induction budget, m using run_induction with
  | halted budget m hhalt =>
    rw [runBounded_of_isHalted _ _ _ hhalt, events_of_isHalted hhalt]
    rfl
  | spent m hhalt =>
    rw [runBounded_zero _ _ _ hhalt]
    rfl
  | failed budget m e hnext =>
    rw [runBounded_of_error _ _ _ hnext, events_of_error hnext]
    exact steps_failed m
  | moved budget m move hnext ih =>
    rw [steps_advance, Nat.add_right_comm] at ih
    rw [runBounded_of_move _ _ _ hnext, events_succ hnext]
    exact ih

/-- Events are numbered one after the other, from the count of the machine. -/
theorem events_numbers (n : Nat) (m : Machine) :
    (m.events n).map (·.step) = List.range' (m.steps + 1) (m.events n).length := by
  induction n, m using run_induction with
  | halted n m hhalt =>
    rw [events_of_isHalted hhalt]
    rfl
  | spent m hhalt => rfl
  | failed n m e hnext =>
    rw [events_of_error hnext]
    rfl
  | moved n m move hnext ih =>
    rw [events_succ hnext, List.map_cons, ih, List.length_cons, List.range'_succ]
    rfl

/-- Nothing is executed where no step is made. -/
theorem next_ne_of_stuck {i : Nat} {before : Machine} {move : Move} (h : m.Stuck)
    (hafter : m.after i = some before) : before.next ≠ .ok (some move) := by
  intro hnext
  have hlast : m.after (i + 1) = some (before.advance move) := by
    rw [after_add hafter]
    exact after_succ (step_eq_some_iff.mpr ⟨move, hnext, rfl⟩) 0
  exact absurd (le_of_stuck rfl h hlast) (Nat.not_succ_le_zero i)

/-- There is an event for each instruction that is executed, in the order in which they are. -/
theorem events_getElem?_iff {n i : Nat} {e : StepEvent} :
    (m.events n)[i]? = some e ↔ i < n ∧ ∃ before move, m.after i = some before ∧
      before.next = .ok (some move) ∧ e = (before.advance move).event move := by
  induction n, m using run_induction generalizing i with
  | halted n m hhalt =>
    -- no event, and no instruction that is executed from here on
    rw [events_of_isHalted hhalt]
    refine iff_of_false (by simp) ?_
    rintro ⟨-, before, move, hafter, hmove, -⟩
    exact next_ne_of_stuck (stuck_of_isHalted hhalt) hafter hmove
  | spent m hhalt => simp [events]
  | failed n m failure hnext =>
    rw [events_of_error hnext]
    refine iff_of_false (by simp) ?_
    rintro ⟨-, before, move, hafter, hmove, -⟩
    exact next_ne_of_stuck (stuck_of_error hnext) hafter hmove
  | moved n m move hnext ih =>
    rw [events_succ hnext]
    cases i with
    | zero =>
      rw [List.getElem?_cons_zero, Option.some.injEq]
      constructor
      · rintro rfl
        exact ⟨Nat.succ_pos n, m, move, rfl, hnext, rfl⟩
      · rintro ⟨-, before, move', hafter, hnext', rfl⟩
        cases hafter
        rw [hnext] at hnext'
        cases hnext'
        rfl
    | succ i =>
      rw [List.getElem?_cons_succ, ih, Nat.add_lt_add_iff_right,
        after_succ (step_eq_some_iff.mpr ⟨move, hnext, rfl⟩)]

/-! ## All ways of driving a machine -/

/-- What the ways of driving a machine have in common, for a budget of `n` steps. -/
structure Driven (m : Machine) (n : Nat) : Prop where
  /-- A run gives a result if and only if calls execute instructions, no more than the budget allows, and
  then find the machine halted. The result is the top of the stack, and the machine is theirs. -/
  ok_iff : ∀ r m', m.runWithin n = (.ok r, m') ↔
    ∃ k ≤ n, m.calls (k + 1) = (List.replicate k (.ok .executed) ++ [.ok .halted], m') ∧ r = m'.top
  /-- The run without a budget then has the same end. -/
  toEnd : ∀ r m', m.runWithin n = (.ok r, m') → m.runToEnd = some (.ok r, m')
  /-- A run says that its steps are spent if and only if that many calls execute an instruction each, and
  the machine is not halted behind them. -/
  spent_iff : ∀ limit m', m.runWithin n = (.error (.stepLimitExceeded limit), m') ↔
    limit = n ∧ m.calls n = (List.replicate n (.ok .executed), m') ∧ ¬ m'.isHalted
  /-- A run that spent its steps is gone on with as if the steps to come had been allowed at once. -/
  resumes : ∀ limit m', m.runWithin n = (.error (.stepLimitExceeded limit), m') → ∀ more,
    m.runWithin (n + more) =
      ((m'.runWithin more).1.mapError (·.withLimit (n + more)), (m'.runWithin more).2)
  /-- A run that is observed is the same run. Its observer is shown the events, one after the other. -/
  watched : ∀ {σ : Type} (observe : σ → StepEvent → σ) (initial : σ),
    m.runWatched observe initial n =
      ((m.runWithin n).1, (m.events n).foldl observe initial, (m.runWithin n).2)
  /-- The events are those of the instructions that are executed, one each and in this order. -/
  events_iff : ∀ i e, (m.events n)[i]? = some e ↔ i < n ∧ ∃ before move, m.after i = some before ∧
    before.next = .ok (some move) ∧ e = (before.advance move).event move
  /-- Their numbers increase by one from the count of the machine, -/
  numbers : (m.events n).map (·.step) = List.range' (m.steps + 1) (m.events n).length
  /-- up to the count of the machine that is left. -/
  counted : (m.runWithin n).2.steps = m.steps + (m.events n).length

/-- **All ways of driving a machine agree.** -/
theorem drivers_agree (m : Machine) (n : Nat) : m.Driven n where
  ok_iff r m' := by
    simp only [runWithin_ok_iff, calls_halted_iff, and_assoc]
  toEnd r m' h := runToEnd_eq_some_iff.mpr ⟨.ok r, n, h⟩
  spent_iff limit m' := by
    rw [runWithin_spent_iff, calls_executed_iff]
  resumes limit m' h more := runWithin_add (runWithin_spent_iff.mp h).2.1 more
  watched observe initial := runBounded_observed observe n n initial m
  events_iff i e := events_getElem?_iff
  numbers := events_numbers n m
  counted := steps_runBounded n n m

end Machine

end LispMachine
