import LispMachine.Machine.Instruction

/-!
# The machine

A machine is the four registers, the store and a count of the instructions it has executed. It is
halted when its code register is empty, and then the top of its stack is its result.

A step is decided (`next`) before it is carried out (`advance`), so an instruction that fails leaves
the machine as it was, and a run that fails ends in the machine that could not go on. Runs have a
budget of steps. An observer learns of each executed instruction what it led to (`Machine.event`).
-/

namespace LispMachine

/-- A machine between two instructions. -/
structure Machine where
  registers : Registers
  store : Store
  /-- How many instructions were executed. -/
  steps : Nat
deriving Repr, Inhabited

/-- One instruction that can be carried out: what it is, where it comes from and what it does. -/
structure Move where
  opcode : Opcode
  origin : Option Span
  registers : Registers
  effect : Effect
deriving Repr

/-- What an observer learns about an executed instruction: the state right behind it. -/
structure StepEvent where
  /-- How many instructions were executed, this one included. -/
  step : Nat
  opcode : Opcode
  origin : Option Span
  stack : List Value
  dump : List DumpEntry
deriving Repr

/-- The number of saved continuations. -/
def StepEvent.dumpDepth (e : StepEvent) : Nat := e.dump.length

/-- The result of a finished run, if it left one. -/
abbrev RunResult := Except RuntimeError (Option Value)

namespace Machine

/-- A machine about to execute code in an environment. -/
def start (code : Code) (env : Environment) (store : Store) : Machine :=
  { registers := { stack := [], env, code, dump := [] }, store, steps := 0 }

/-- A machine about to execute code, with one empty global frame. -/
def ofCode (code : Code) : Machine := start code [0] (Store.empty.alloc [])

/-- The stack register, its top first. -/
def stack (m : Machine) : List Value := m.registers.stack

/-- The environment register. -/
def env (m : Machine) : Environment := m.registers.env

/-- The code register: what is still to be executed. -/
def code (m : Machine) : Code := m.registers.code

/-- The dump register, its newest entry first. -/
def dump (m : Machine) : List DumpEntry := m.registers.dump

/-- Whether nothing is left to execute. -/
def isHalted (m : Machine) : Bool := m.code.isEmpty

/-- The top of the stack. -/
def top (m : Machine) : Option Value := m.stack.head?

/-- Where the next instruction comes from, if that is known. -/
def nextOrigin (m : Machine) : Option Span := m.code.head?.bind Value.origin?

/-- Decides the next instruction; there is none when the machine is halted. -/
def next (m : Machine) : Except RuntimeError (Option Move) :=
  match m.registers.code with
  | [] => .ok none
  | .op opcode origin :: rest =>
    match perform opcode m.store { m.registers with code := rest } with
    | .ok (registers, effect) => .ok (some { opcode, origin, registers, effect })
    | .error e => .error e
  | v :: _ => .error (.notAnInstruction v.text)

/-- Carries out an instruction that was decided. -/
def advance (m : Machine) (move : Move) : Machine :=
  { registers := move.registers, store := m.store.apply move.effect, steps := m.steps + 1 }

/-- Executes one instruction; there is no next machine when this one is halted. -/
def step (m : Machine) : Except RuntimeError (Option Machine) :=
  match m.next with
  | .ok (some move) => .ok (some (m.advance move))
  | .ok none => .ok none
  | .error e => .error e

/-- What an observer learns about an instruction that led to a machine. -/
def event (after : Machine) (move : Move) : StepEvent :=
  { step := after.steps, opcode := move.opcode, origin := move.origin, stack := after.stack,
    dump := after.dump }

/-! ## Runs -/

/-- Runs for at most so many steps, and names `limit` as the limit when they do not suffice. -/
def runFor (limit : Nat) : Nat → Machine → RunResult × Machine
  | 0, m => (if m.isHalted then .ok m.top else .error (.stepLimitExceeded limit), m)
  | budget + 1, m =>
    match m.next with
    | .ok (some move) => runFor limit budget (m.advance move)
    | .ok none => (.ok m.top, m)
    | .error e => (.error e, m)

/-- Runs until the machine is halted, with a limit on the steps. The machine comes back as the run
left it. -/
def runWithLimit (m : Machine) (limit : Nat) : RunResult × Machine := runFor limit limit m

end Machine

end LispMachine
