import LispMachine.Machine

/-!
# Driving a machine

A machine is driven one instruction at a time or in a run, and a run goes to its end or has a budget of
steps, with or without an observer. There are two loops. The one without a budget executes instructions
until the machine reports that it is halted. The one with a budget looks whether the machine is halted
before it looks at the budget, and at the budget before it executes an instruction.

An instruction that fails gives nothing back. It takes what it works on one thing after the other, and
what it took by then is gone from the registers of the machine that is left (`Machine.failed`). Nothing
else of the machine changes, with one exception: `RAP` fills its frame before it looks for the frame to
leave, and fails if there is none.
-/

namespace LispMachine

/-- One thing that an instruction takes to work on. -/
inductive Taking where
  /-- The top of the stack, whatever it is. -/
  | value
  | list
  | number
  | closure
  /-- An operand from the code, whatever it is. -/
  | operand
  | block
  /-- A part of an address, from the code. -/
  | index
  /-- The newest entry of the dump. -/
  | entry
deriving DecidableEq, Repr

/-- What an instruction takes, in order. -/
def Opcode.takings : Opcode → List Taking
  | nil | dum => []
  | ldc => [.operand]
  | ld => [.index, .index]
  | ldf => [.block]
  | ap | rap => [.closure, .list]
  | rtn => [.value, .entry]
  | sel => [.value, .block, .block]
  | join => [.entry]
  | cons => [.value, .list]
  | car | cdr => [.list]
  | consp | pop | defun => [.value]
  | add | sub | mul | div | eq | ne | lt | le | ht | he | or | and => [.number, .number]

namespace Registers

/-- Whether what is to be taken is there, and of its kind. -/
def offers (r : Registers) : Taking → Bool
  | .value => r.stack.head?.isSome
  | .list => (r.stack.head?.bind Value.items?).isSome
  | .number => (r.stack.head?.bind Value.number?).isSome
  | .closure => r.stack.head?.any (·.kind = .closure)
  | .operand => r.code.head?.isSome
  | .block => (r.code.head?.bind Value.items?).isSome
  | .index => (r.code.head?.bind Value.number?).isSome
  | .entry => r.dump.head?.isSome

/-- Takes one thing, whether it is of its kind or not. -/
def take (r : Registers) : Taking → Registers
  | .value | .list | .number | .closure => { r with stack := r.stack.tail }
  | .operand | .block | .index => { r with code := r.code.tail }
  | .entry => { r with dump := r.dump.tail }

/-- Takes one thing after the other. The first that is not of its kind is the last that is taken. -/
def takeAll (r : Registers) : List Taking → Registers
  | [] => r
  | t :: ts => if r.offers t then (r.take t).takeAll ts else r.take t

/-- What an instruction has done to the store when it fails. -/
def leftover (r : Registers) : Opcode → Effect
  | .rap =>
    match r.stack, r.env with
    | .closure _ (dummy :: _) :: .list args :: _, [] => .fill dummy args
    | _, _ => .keep
  | _ => .keep

end Registers

/-- What the machine reports when an instruction is asked for. -/
inductive StepOutcome where
  | executed
  | halted
deriving DecidableEq, Repr

namespace Machine

/-- The machine that is left when its next instruction fails. -/
def failed (m : Machine) : Machine :=
  match m.registers.code with
  | [] => m
  | v :: rest =>
    let r := { m.registers with code := rest }
    match v with
    | .op opcode _ =>
      { m with registers := r.takeAll opcode.takings, store := m.store.apply (r.leftover opcode) }
    | _ => { m with registers := r }

section
variable {σ : Type} (observer : Option (σ → StepEvent → σ))

/-- Executes one instruction, and shows it to the observer if there is one. -/
def execute (seen : σ) (m : Machine) : Except RuntimeError StepOutcome × σ × Machine :=
  match m.next with
  | .ok (some move) =>
    let after := m.advance move
    (.ok .executed, observer.elim seen (· seen (after.event move)), after)
  | .ok none => (.ok .halted, seen, m)
  | .error e => (.error e, seen, m.failed)

/-- Runs for at most so many steps, and names `limit` as the limit when they do not suffice. -/
def runBounded (limit budget : Nat) (seen : σ) (m : Machine) : RunResult × σ × Machine :=
  if m.isHalted then (.ok m.top, seen, m)
  else
    match budget with
    | 0 => (.error (.stepLimitExceeded limit), seen, m)
    | budget + 1 =>
      match execute observer seen m with
      | (.ok _, seen, m) => runBounded limit budget seen m
      | (.error e, seen, m) => (.error e, seen, m)

end

/-- Asks for one instruction. -/
def call (m : Machine) : Except RuntimeError StepOutcome × Machine :=
  let (outcome, _, m) := execute none () m
  (outcome, m)

/-- Runs with a limit on the steps. -/
def runWithin (m : Machine) (limit : Nat) : RunResult × Machine :=
  let (result, _, m) := runBounded none limit limit () m
  (result, m)

/-- Runs with a limit on the steps, and shows every step to an observer that starts in a state. -/
def runWatched {σ : Type} (observe : σ → StepEvent → σ) (m : Machine) (initial : σ) (limit : Nat) :
    RunResult × σ × Machine :=
  runBounded (some observe) limit limit initial m

/-- Runs until the machine is halted. There is no end to a program that never halts. -/
def runToEnd (m : Machine) : Option (RunResult × Machine) :=
  match m.call with
  | (.ok .executed, m) => m |>.runToEnd
  | (.ok .halted, m) => some (.ok m.top, m)
  | (.error e, m) => some (.error e, m)
partial_fixpoint

end Machine

end LispMachine
