import LispMachine.Machine.Store
import LispMachine.Value.Depth

/-!
# Instructions

The registers of the machine and what each instruction does to them. `perform` decides an
instruction: from the registers behind the instruction, and the store to read variables from, it
gives the new registers and the effect on the store. Nothing is changed when it fails.

The stack has its top first, and the dump its newest entry first. The code register holds what is
still to be executed, so that an instruction takes its operands from the front.
-/

namespace LispMachine

/-- Values that instructions work on, the top first. -/
abbrev Stack := List Value

/-- A saved continuation. -/
inductive DumpEntry where
  /-- The state of a caller, saved by `AP` and `RAP` and restored by `RTN`. -/
  | call (stack : Stack) (env : Environment) (code : Code)
  /-- The code behind a `SEL`, resumed by `JOIN`. -/
  | join (code : Code)
deriving Repr, Inhabited

/-- The four registers. -/
structure Registers where
  stack : Stack
  env : Environment
  code : Code
  dump : List DumpEntry
deriving Repr, Inhabited

/-! ## Operands

What an instruction takes from the stack and from the code. Each function is told for which
instruction, so that the error names it. -/

namespace Stack
variable (op : Opcode)

/-- Takes the top. -/
def pop : Stack → Except RuntimeError (Value × Stack)
  | v :: stack => .ok (v, stack)
  | [] => .error (.emptyStack op)

/-- Takes a list. -/
def popList (stack : Stack) : Except RuntimeError (List Value × Stack) := do
  match ← stack.pop op with
  | (.list items, stack) => .ok (items, stack)
  | (v, _) => .error (.typeMismatch op .list v.kind)

/-- Takes a list that has an item, as its head and its tail. -/
def popPair (stack : Stack) : Except RuntimeError (Value × List Value × Stack) := do
  match ← stack.popList op with
  | (head :: tail, stack) => .ok (head, tail, stack)
  | ([], _) => .error (.typeMismatch op .nonEmptyList .emptyList)

/-- Takes a number. -/
def popNumber (stack : Stack) : Except RuntimeError (Number × Stack) := do
  match ← stack.pop op with
  | (.number n, stack) => .ok (n, stack)
  | (v, _) => .error (.typeMismatch op .number v.kind)

/-- Takes two numbers: the left operand is on top of the right one. -/
def popNumbers (stack : Stack) : Except RuntimeError (Number × Number × Stack) := do
  let (left, stack) ← stack.popNumber op
  let (right, stack) ← stack.popNumber op
  return (left, right, stack)

/-- Takes a closure. -/
def popClosure (stack : Stack) : Except RuntimeError (Code × Environment × Stack) := do
  match ← stack.pop op with
  | (.closure code env, stack) => .ok (code, env, stack)
  | (v, _) => .error (.typeMismatch op .closure v.kind)

end Stack

namespace Code
variable (op : Opcode)

/-- Takes an operand. -/
def operand : Code → Except RuntimeError (Value × Code)
  | v :: code => .ok (v, code)
  | [] => .error (.missingOperand op)

/-- Takes a code block. -/
def block (code : Code) : Except RuntimeError (Code × Code) := do
  match ← code.operand op with
  | (.list block, code) => .ok (block, code)
  | (v, _) => .error (.typeMismatch op .codeBlock v.kind)

/-- Takes a number. -/
def number (code : Code) : Except RuntimeError (Number × Code) := do
  match ← code.operand op with
  | (.number n, code) => .ok (n, code)
  | (v, _) => .error (.typeMismatch op .numberOperand v.kind)

end Code

/-- The value of a variable, given by the two numbers of its address. -/
def Store.load (store : Store) (env : Environment) (depth offset : Number) :
    Except RuntimeError Value :=
  if depth.toInt < 0 ∨ offset.toInt < 0 then
    .error (.unresolvedVariable depth.toInt offset.toInt)
  else
    let d := depth.toInt.toNat
    let o := offset.toInt.toNat
    match env[d]? with
    | none => .error (.frameOutOfRange .ld d env.length)
    | some f =>
      match store.get? f o with
      | none => .error (.offsetOutOfRange d o (store.contents f).length)
      | some v => .ok v

/-! ## What instructions do -/

namespace Registers

/-- Puts a value on the stack. -/
def push (r : Registers) (v : Value) : Registers := { r with stack := v :: r.stack }

/-- Saves the caller on the dump, with the given stack and environment, and starts a code block on an
empty stack. -/
def enter (r : Registers) (stack : Stack) (saved : Environment) (code : Code) (env : Environment) :
    Registers :=
  { stack := [], env, code, dump := .call stack saved r.code :: r.dump }

/-- Replaces two numbers on the stack by a number, unless the operation overflows. -/
def arithmetic (r : Registers) (op : Opcode) (f : Number → Number → Option Number) :
    Except RuntimeError Registers := do
  let (left, right, stack) ← r.stack.popNumbers op
  match f left right with
  | some n => return { r with stack := .number n :: stack }
  | none => throw (.overflow op)

/-- Replaces two numbers on the stack by a truth value. -/
def compare (r : Registers) (op : Opcode) (test : Number → Number → Bool) :
    Except RuntimeError Registers := do
  let (left, right, stack) ← r.stack.popNumbers op
  return { r with stack := .ofBool (test left right) :: stack }

end Registers

/-- Decides an instruction: the new registers and the effect on the store. The code register has the
instruction's operands at its front. -/
def perform (op : Opcode) (store : Store) (r : Registers) :
    Except RuntimeError (Registers × Effect) := do
  match op with
  | .nil => return (r.push .nil, .keep)
  | .ldc =>
    let (v, code) ← r.code.operand op
    return ({ r with stack := v :: r.stack, code }, .keep)
  | .ld =>
    let (depth, code) ← r.code.number op
    let (offset, code) ← code.number op
    let v ← store.load r.env depth offset
    return ({ r with stack := v :: r.stack, code }, .keep)
  | .ldf =>
    let (block, code) ← r.code.block op
    return ({ r with stack := .closure block r.env :: r.stack, code }, .keep)
  | .ap =>
    let (code, env, stack) ← r.stack.popClosure op
    let (args, stack) ← stack.popList op
    return (r.enter stack r.env code (store.size :: env), .alloc args)
  | .rap =>
    let (code, env, stack) ← r.stack.popClosure op
    let (args, stack) ← stack.popList op
    match env, r.env with
    | dummy :: _, _ :: saved => return (r.enter stack saved code env, .fill dummy args)
    | _, _ => throw (.frameOutOfRange op 0 0)
  | .rtn =>
    let (v, _) ← r.stack.pop op
    match r.dump with
    | .call stack env code :: dump => return ({ stack := v :: stack, env, code, dump }, .keep)
    | .join _ :: _ => throw (.dumpMismatch op .call)
    | [] => throw (.emptyDump op)
  | .dum => return ({ r with env := store.size :: r.env }, .alloc [])
  | .sel =>
    let (condition, stack) ← r.stack.pop op
    let (consequent, code) ← r.code.block op
    let (alternative, code) ← code.block op
    let branch := if condition.isTruthy then consequent else alternative
    return ({ r with stack, code := branch, dump := .join code :: r.dump }, .keep)
  | .join =>
    match r.dump with
    | .join code :: dump => return ({ r with code, dump }, .keep)
    | .call .. :: _ => throw (.dumpMismatch op .join)
    | [] => throw (.emptyDump op)
  | .cons =>
    let (head, stack) ← r.stack.pop op
    let (tail, stack) ← stack.popList op
    if maxDataDepth ≤ head.depth then throw (.dataTooDeep op maxDataDepth)
    return ({ r with stack := .list (head :: tail) :: stack }, .keep)
  | .car =>
    let (head, _, stack) ← r.stack.popPair op
    return ({ r with stack := head :: stack }, .keep)
  | .cdr =>
    let (_, tail, stack) ← r.stack.popPair op
    return ({ r with stack := .list tail :: stack }, .keep)
  | .consp =>
    let (v, stack) ← r.stack.pop op
    return ({ r with stack := .ofBool (v.kind = .list) :: stack }, .keep)
  | .pop =>
    let (_, stack) ← r.stack.pop op
    return ({ r with stack }, .keep)
  | .add => return (← r.arithmetic op Number.add?, .keep)
  | .sub => return (← r.arithmetic op Number.sub?, .keep)
  | .mul => return (← r.arithmetic op Number.mul?, .keep)
  | .div =>
    let (_, right, _) ← r.stack.popNumbers op
    if right = 0 then throw .divisionByZero
    return (← r.arithmetic op Number.div?, .keep)
  | .eq => return (← r.compare op (fun a b => a == b), .keep)
  | .ne => return (← r.compare op (fun a b => a != b), .keep)
  | .lt => return (← r.compare op (fun a b => decide (a < b)), .keep)
  | .le => return (← r.compare op (fun a b => decide (a ≤ b)), .keep)
  | .ht => return (← r.compare op (fun a b => decide (b < a)), .keep)
  | .he => return (← r.compare op (fun a b => decide (b ≤ a)), .keep)
  | .and => return (← r.compare op (fun a b => a != 0 && b != 0), .keep)
  | .or => return (← r.compare op (fun a b => a != 0 || b != 0), .keep)
  | .defun =>
    let (v, stack) ← r.stack.pop op
    match r.env.getLast? with
    | some global => return ({ r with stack }, .append global v)
    | none => throw (.frameOutOfRange op 0 0)

end LispMachine
