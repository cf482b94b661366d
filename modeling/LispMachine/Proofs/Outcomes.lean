import LispMachine.Machine.Driving
import LispMachine.Proofs.Primitive

/-!
# What instructions come to

`perform` computes what an instruction does. Here it is described by cases: `Performs` has one for each way
in which instructions succeed, with all operands in their places, and `Aborts` one for each way in which they
fail. The description is exact. An instruction succeeds with a result if and only if it is described so
(`perform_eq_ok_iff`), and fails with an error if and only if it is described so (`perform_eq_error_iff`).

Most instructions exchange values on the stack and leave all else alone, so that they have one case in
`Performs`, and `Exchanges` says what is given for what is taken. An instruction fails because something that
it takes is not there, or is of another kind, or because it does not go with what it has taken. The first is
said once for all instructions, along the list of what they take (`Registers.lack?`), and the second in
`Refuses`.

This is the only place where `perform` is taken apart instruction by instruction. What is proved of all
instructions elsewhere goes by the cases of the description.
-/

namespace LispMachine

/-! ## What is not there to be taken

Before an instruction does anything, all that it takes has to be there and of the right kind. The first thing
that is missing decides the error, in the order in which the machine takes them.
-/

namespace Registers

/-- What an instruction says of something that it takes and that is not there, or not of its kind. -/
def complaint (op : Opcode) (r : Registers) : Taking → RuntimeError
  | .value => .emptyStack op
  | .list => r.stack.head?.elim (.emptyStack op) fun v => .typeMismatch op .list v.kind
  | .number => r.stack.head?.elim (.emptyStack op) fun v => .typeMismatch op .number v.kind
  | .closure => r.stack.head?.elim (.emptyStack op) fun v => .typeMismatch op .closure v.kind
  | .operand => .missingOperand op
  | .block => r.code.head?.elim (.missingOperand op) fun v => .typeMismatch op .codeBlock v.kind
  | .index => r.code.head?.elim (.missingOperand op) fun v => .typeMismatch op .numberOperand v.kind
  | .entry => .emptyDump op

/-- What an instruction says of the first thing that it cannot take, if there is one. -/
def lack? (op : Opcode) (r : Registers) : List Taking → Option RuntimeError
  | [] => none
  | t :: ts => if r.offers t then (r.take t).lack? op ts else some (r.complaint op t)

end Registers

/-! ## What instructions do

One relation for each of the three ways in which an instruction ends: it has done its work (`Performs`), it
lacks something, or it refuses what it has found (`Refuses`).
-/

/-- The number that an instruction makes of two numbers, the left one first, if it is one of those that make
a number of two. -/
def Opcode.calculation? : Opcode → Option (Number → Number → Except RuntimeError Number)
  | add => some fun a b => Number.orOverflow .add (a.add? b)
  | sub => some fun a b => Number.orOverflow .sub (a.sub? b)
  | mul => some fun a b => Number.orOverflow .mul (a.mul? b)
  | div => some fun a b => if b = 0 then .error .divisionByZero else Number.orOverflow .div (a.div? b)
  | eq => some fun a b => .ok (.ofBool (a == b))
  | ne => some fun a b => .ok (.ofBool (a != b))
  | lt => some fun a b => .ok (.ofBool (decide (a < b)))
  | le => some fun a b => .ok (.ofBool (decide (a ≤ b)))
  | ht => some fun a b => .ok (.ofBool (decide (b < a)))
  | he => some fun a b => .ok (.ofBool (decide (b ≤ a)))
  | and => some fun a b => .ok (.ofBool (a != 0 && b != 0))
  | or => some fun a b => .ok (.ofBool (a != 0 || b != 0))
  | _ => none

/-- How many values an instruction takes from the stack and how many it puts there, where it does nothing
else: the environment, the dump and the store are left alone. -/
def Opcode.exchange? : Opcode → Option (Nat × Nat)
  | nil | ld | ldc | ldf => some (0, 1)
  | car | cdr | consp => some (1, 1)
  | cons | add | sub | mul | div | eq | ne | lt | le | ht | he | or | and => some (2, 1)
  | pop => some (1, 0)
  | ap | rap | rtn | dum | sel | join | defun => none

/-- What such an instruction puts on the stack, for what it takes from the stack and from the code. -/
inductive Exchanges (store : Store) (env : Environment) : Opcode → Stack → Code → Stack → Prop
  | nil : Exchanges store env .nil [] [] [.nil]
  | ldc (v : Value) : Exchanges store env .ldc [] [v] [v]
  | ld {depth offset : Number} {v : Value} (loaded : store.load env depth offset = .ok v) :
      Exchanges store env .ld [] [.number depth, .number offset] [v]
  | ldf (code : Code) : Exchanges store env .ldf [] [.list code] [.closure code env]
  | cons {head : Value} (tail : List Value) (room : head.depth < maxDataDepth) :
      Exchanges store env .cons [head, .list tail] [] [.list (head :: tail)]
  | car (head : Value) (tail : List Value) : Exchanges store env .car [.list (head :: tail)] [] [head]
  | cdr (head : Value) (tail : List Value) :
      Exchanges store env .cdr [.list (head :: tail)] [] [.list tail]
  | consp (v : Value) : Exchanges store env .consp [v] [] [.ofBool (v.kind = .list)]
  | pop (v : Value) : Exchanges store env .pop [v] [] []
  | numbers {op : Opcode} {f : Number → Number → Except RuntimeError Number} {left right n : Number}
      (calculates : op.calculation? = some f) (result : f left right = .ok n) :
      Exchanges store env op [.number left, .number right] [] [.number n]

/-- An instruction that succeeds: from the registers behind it, with its operands in front, to the new
registers, and its effect on the store. -/
inductive Performs (store : Store) : Opcode → Registers → Registers → Effect → Prop
  | exchange {op : Opcode} {S : Stack} {E : Environment} {C : Code} {D : List DumpEntry}
      (taken given : Stack) (operands : Code) (counts : op.exchange? = some (taken.length, given.length))
      (operandCount : operands.length = op.operandCount)
      (exchanges : Exchanges store E op taken operands given) :
      Performs store op ⟨taken ++ S, E, operands ++ C, D⟩ ⟨given ++ S, E, C, D⟩ .keep
  | ap {code : Code} {env : Environment} {args : List Value} {S : Stack} {E : Environment} {C : Code}
      {D : List DumpEntry} :
      Performs store .ap ⟨.closure code env :: .list args :: S, E, C, D⟩
        ⟨[], store.size :: env, code, .call S E C :: D⟩ (.alloc args)
  | rap {code : Code} {env : Environment} {dummy f : FrameId} {args : List Value} {S : Stack}
      {E : Environment} {C : Code} {D : List DumpEntry} :
      Performs store .rap ⟨.closure code (dummy :: env) :: .list args :: S, f :: E, C, D⟩
        ⟨[], dummy :: env, code, .call S E C :: D⟩ (.fill dummy args)
  | rtn {v : Value} {S rest : Stack} {E env : Environment} {C code : Code} {D : List DumpEntry} :
      Performs store .rtn ⟨v :: rest, env, code, .call S E C :: D⟩ ⟨v :: S, E, C, D⟩ .keep
  | dum {S : Stack} {E : Environment} {C : Code} {D : List DumpEntry} :
      Performs store .dum ⟨S, E, C, D⟩ ⟨S, store.size :: E, C, D⟩ (.alloc [])
  | sel {condition : Value} {consequent alternative : Code} {S : Stack} {E : Environment} {C : Code}
      {D : List DumpEntry} :
      Performs store .sel ⟨condition :: S, E, .list consequent :: .list alternative :: C, D⟩
        ⟨S, E, if condition.isTruthy then consequent else alternative, .join C :: D⟩ .keep
  | join {S : Stack} {E : Environment} {C code : Code} {D : List DumpEntry} :
      Performs store .join ⟨S, E, code, .join C :: D⟩ ⟨S, E, C, D⟩ .keep
  | defun {v : Value} {S : Stack} {E : Environment} {C : Code} {D : List DumpEntry} {global : FrameId}
      (last : E.getLast? = some global) :
      Performs store .defun ⟨v :: S, E, C, D⟩ ⟨S, E, C, D⟩ (.append global v)

/-- Why an instruction fails that could take all that it takes. -/
inductive Refuses (store : Store) : Opcode → Registers → RuntimeError → Prop
  | ld {depth offset : Number} {S : Stack} {E : Environment} {C : Code} {D : List DumpEntry}
      {e : RuntimeError} (missing : store.load E depth offset = .error e) :
      Refuses store .ld ⟨S, E, .number depth :: .number offset :: C, D⟩ e
  /-- There is no frame to fill, or none to leave. -/
  | rap {code : Code} {env : Environment} {args : List Value} {S : Stack} {E : Environment} {C : Code}
      {D : List DumpEntry} (missing : env = [] ∨ E = []) :
      Refuses store .rap ⟨.closure code env :: .list args :: S, E, C, D⟩ (.frameOutOfRange .rap 0 0)
  | rtn {v : Value} {S : Stack} {E : Environment} {C code : Code} {D : List DumpEntry} :
      Refuses store .rtn ⟨v :: S, E, C, .join code :: D⟩ (.dumpMismatch .rtn .call)
  | join {S stack : Stack} {E env : Environment} {C code : Code} {D : List DumpEntry} :
      Refuses store .join ⟨S, E, C, .call stack env code :: D⟩ (.dumpMismatch .join .join)
  | cons {head : Value} {tail : List Value} {S : Stack} {E : Environment} {C : Code} {D : List DumpEntry}
      (deep : maxDataDepth ≤ head.depth) :
      Refuses store .cons ⟨head :: .list tail :: S, E, C, D⟩ (.dataTooDeep .cons maxDataDepth)
  /-- The empty list has no head and no tail. -/
  | pair {op : Opcode} {S : Stack} {E : Environment} {C : Code} {D : List DumpEntry}
      (either : op = .car ∨ op = .cdr) :
      Refuses store op ⟨.nil :: S, E, C, D⟩ (.typeMismatch op .nonEmptyList .emptyList)
  | numbers {op : Opcode} {f : Number → Number → Except RuntimeError Number} {left right : Number}
      {S : Stack} {E : Environment} {C : Code} {D : List DumpEntry} {e : RuntimeError}
      (calculates : op.calculation? = some f) (result : f left right = .error e) :
      Refuses store op ⟨.number left :: .number right :: S, E, C, D⟩ e
  | defun {v : Value} {S : Stack} {C : Code} {D : List DumpEntry} :
      Refuses store .defun ⟨v :: S, [], C, D⟩ (.frameOutOfRange .defun 0 0)

/-- An instruction that fails. -/
inductive Aborts (store : Store) (op : Opcode) (r : Registers) (e : RuntimeError) : Prop
  | lacks (first : r.lack? op op.takings = some e)
  | refuses (refuses : Refuses store op r e)

/-- What an instruction comes to. -/
inductive Outcome (store : Store) (op : Opcode) (r : Registers) :
    Except RuntimeError (Registers × Effect) → Prop
  | ok {r' : Registers} {effect : Effect} (performs : Performs store op r r' effect) :
      Outcome store op r (.ok (r', effect))
  | error {e : RuntimeError} (fails : Aborts store op r e) : Outcome store op r (.error e)

/-- A variable that has a value has it in the frame and at the offset that its address gives. -/
theorem Store.load_eq_ok {store : Store} {env : Environment} {depth offset : Number} {v : Value}
    (h : store.load env depth offset = .ok v) :
    ∃ f, env[depth.toInt.toNat]? = some f ∧ store.get? f offset.toInt.toNat = some v := by
  rw [Store.load] at h
  split at h
  next => cases h
  next =>
    simp only at h
    split at h
    next => cases h
    next f hf =>
      split at h
      next => cases h
      next v' hv =>
        cases h
        exact ⟨f, hf, hv⟩

section
variable {store : Store} {op : Opcode} {r r' : Registers} {effect : Effect} {e : RuntimeError}
  {f : Number → Number → Except RuntimeError Number}

/-! ## Numbers

The instructions that make a number of two numbers differ in the function alone, and are described, run and
refused together.
-/

theorem Opcode.takings_of_calculation (h : op.calculation? = some f) : op.takings = [.number, .number] := by
  cases op <;> first | rfl | cases h

theorem Opcode.exchange?_of_calculation (h : op.calculation? = some f) : op.exchange? = some (2, 1) := by
  cases op <;> first | rfl | cases h

theorem Opcode.operandCount_of_calculation (h : op.calculation? = some f) : op.operandCount = 0 := by
  cases op <;> first | rfl | cases h

/-- An instruction that makes a number of two takes them from the stack. -/
theorem perform_of_calculation (h : op.calculation? = some f) (store : Store) (r : Registers) :
    perform op store r = r.stack.popNumbers op >>= fun (left, right, S) =>
      (f left right).map fun n => ({ r with stack := .number n :: S }, .keep) := by
  have harithmetic : ∀ g : Number → Number → Option Number,
      (r.arithmetic op g >>= fun r' => pure (r', Effect.keep)) =
        r.stack.popNumbers op >>= fun (left, right, S) =>
          (Number.orOverflow op (g left right)).map fun n => ({ r with stack := .number n :: S }, .keep) := by
    intro g
    unfold Registers.arithmetic
    cases r.stack.popNumbers op with
    | error e => rfl
    | ok taken =>
      obtain ⟨left, right, S⟩ := taken
      simp only [bind, Except.bind]
      cases g left right with
      | none => rfl
      | some n => rfl
  have hcompare : ∀ test : Number → Number → Bool,
      (r.compare op test >>= fun r' => pure (r', Effect.keep)) =
        r.stack.popNumbers op >>= fun (left, right, S) =>
          (Except.ok (.ofBool (test left right)) : Except RuntimeError Number).map fun n =>
            ({ r with stack := .number n :: S }, .keep) := by
    intro test
    unfold Registers.compare
    cases r.stack.popNumbers op <;> rfl
  cases op with
  | add | sub | mul =>
    cases h
    exact harithmetic _
  | eq | ne | lt | le | ht | he | and | or =>
    cases h
    exact hcompare _
  | div =>
    cases h
    -- the divisor is looked at before the numbers are taken once more for the division
    have hdiv := harithmetic Number.div?
    show (r.stack.popNumbers .div >>= _) = _
    cases hpop : r.stack.popNumbers .div with
    | error e => rfl
    | ok taken =>
      obtain ⟨left, right, S⟩ := taken
      rw [hpop] at hdiv
      by_cases hzero : right = 0
      · simp only [bind, Except.bind, hzero, if_true]
        rfl
      · simp only [bind, Except.bind, hzero, if_false] at hdiv ⊢
        exact hdiv
  | _ => cases h

theorem perform_numbers (h : op.calculation? = some f) (store : Store) (left right : Number) (S : Stack)
    (E : Environment) (C : Code) (D : List DumpEntry) :
    perform op store ⟨.number left :: .number right :: S, E, C, D⟩ =
      (f left right).map fun n => (⟨.number n :: S, E, C, D⟩, .keep) :=
  perform_of_calculation h store _

/-- There are two numbers on a stack, or one of them is missing. -/
theorem Registers.popNumbers_cases (op : Opcode) (r : Registers) :
    (∃ left right S, r.stack = .number left :: .number right :: S) ∨
      ∃ e, r.stack.popNumbers op = .error e ∧ r.lack? op [.number, .number] = some e := by
  obtain ⟨stack, E, C, D⟩ := r
  cases stack with
  | nil => exact .inr ⟨_, rfl, rfl⟩
  | cons left stack =>
    cases left with
    | number =>
      cases stack with
      | nil => exact .inr ⟨_, rfl, rfl⟩
      | cons right stack =>
        cases right with
        | number => exact .inl ⟨_, _, _, rfl⟩
        | _ => exact .inr ⟨_, rfl, rfl⟩
    | _ => exact .inr ⟨_, rfl, rfl⟩

theorem outcome_of_calculation (h : op.calculation? = some f) : Outcome store op r (perform op store r) := by
  rw [perform_of_calculation h]
  obtain ⟨left, right, S, hstack⟩ | ⟨e, hpop, hlack⟩ := r.popNumbers_cases op
  · obtain ⟨stack, E, C, D⟩ := r
    obtain rfl : stack = _ := hstack
    show Outcome store op _ ((f left right).map _)
    cases hf : f left right with
    | error e => exact .error (.refuses (.numbers h hf))
    | ok n =>
      exact .ok (.exchange [.number left, .number right] [.number n] [] (Opcode.exchange?_of_calculation h)
        (Opcode.operandCount_of_calculation h).symm (.numbers h hf))
  · rw [hpop]
    exact .error (.lacks (by rw [Opcode.takings_of_calculation h, hlack]))

/-! ## The description is right

What an instruction takes is looked at in the order in which it takes it. Where a thing is missing or of
another kind, the instruction and the list of what it takes compute to the same complaint. The instructions
that take several things come first, and those that take the same ones together.
-/

section
variable {E : Environment} {code : Code} {D : List DumpEntry}

/-- A call comes to what it comes to with a closure and its arguments. -/
theorem outcome_of_call (hop : op = .ap ∨ op = .rap)
    (h : ∀ block env args S, Outcome store op ⟨.closure block env :: .list args :: S, E, code, D⟩
      (perform op store ⟨.closure block env :: .list args :: S, E, code, D⟩)) (stack : Stack) :
    Outcome store op ⟨stack, E, code, D⟩ (perform op store ⟨stack, E, code, D⟩) := by
  cases stack with
  | nil => obtain rfl | rfl := hop <;> exact .error (.lacks rfl)
  | cons callee stack =>
    cases callee with
    | closure block env =>
      cases stack with
      | nil => obtain rfl | rfl := hop <;> exact .error (.lacks rfl)
      | cons args S =>
        cases args with
        | list args => exact h block env args S
        | _ => obtain rfl | rfl := hop <;> exact .error (.lacks rfl)
    -- the kind of a list depends on whether it has items
    | list items => obtain rfl | rfl := hop <;> cases items <;> exact .error (.lacks rfl)
    | _ => obtain rfl | rfl := hop <;> exact .error (.lacks rfl)

theorem outcome_rap (stack : Stack) :
    Outcome store .rap ⟨stack, E, code, D⟩ (perform .rap store ⟨stack, E, code, D⟩) := by
  refine outcome_of_call (.inr rfl) (fun block env args S => ?_) stack
  cases env with
  | nil => exact .error (.refuses (.rap (.inl rfl)))
  | cons dummy env =>
    cases E with
    | nil => exact .error (.refuses (.rap (.inr rfl)))
    | cons frame E => exact .ok .rap

/-- A part of a list is there if the list has items. -/
theorem outcome_of_part (hop : op = .car ∨ op = .cdr)
    (h : ∀ head tail S, Outcome store op ⟨.list (head :: tail) :: S, E, code, D⟩
      (perform op store ⟨.list (head :: tail) :: S, E, code, D⟩)) (stack : Stack) :
    Outcome store op ⟨stack, E, code, D⟩ (perform op store ⟨stack, E, code, D⟩) := by
  cases stack with
  | nil => obtain rfl | rfl := hop <;> exact .error (.lacks rfl)
  | cons v S =>
    cases v with
    | list items =>
      cases items with
      | nil => obtain rfl | rfl := hop <;> exact .error (.refuses (.pair (by decide)))
      | cons head tail => exact h head tail S
    | _ => obtain rfl | rfl := hop <;> exact .error (.lacks rfl)

theorem outcome_cons (stack : Stack) :
    Outcome store .cons ⟨stack, E, code, D⟩ (perform .cons store ⟨stack, E, code, D⟩) := by
  cases stack with
  | nil => exact .error (.lacks rfl)
  | cons head stack =>
    cases stack with
    | nil => exact .error (.lacks rfl)
    | cons tail S =>
      cases tail with
      | list tail =>
        rw [perform_cons_list]
        split
        next deep => exact .error (.refuses (.cons deep))
        next room =>
          exact .ok (.exchange [head, .list tail] [.list (head :: tail)] [] rfl rfl
            (.cons tail (Nat.lt_of_not_le room)))
      | _ => exact .error (.lacks rfl)

theorem outcome_ld {stack : Stack} (code : Code) :
    Outcome store .ld ⟨stack, E, code, D⟩ (perform .ld store ⟨stack, E, code, D⟩) := by
  cases code with
  | nil => exact .error (.lacks rfl)
  | cons depth C =>
    cases depth with
    | number depth =>
      cases C with
      | nil => exact .error (.lacks rfl)
      | cons offset C =>
        cases offset with
        | number offset =>
          rw [perform_ld]
          cases hload : store.load E depth offset with
          | error e => exact .error (.refuses (.ld hload))
          | ok v => exact .ok (.exchange [] [v] [.number depth, .number offset] rfl rfl (.ld hload))
        | _ => exact .error (.lacks rfl)
    | _ => exact .error (.lacks rfl)

theorem outcome_sel (stack : Stack) (code : Code) :
    Outcome store .sel ⟨stack, E, code, D⟩ (perform .sel store ⟨stack, E, code, D⟩) := by
  cases stack with
  | nil => exact .error (.lacks rfl)
  | cons condition S =>
    cases code with
    | nil => exact .error (.lacks rfl)
    | cons consequent C =>
      cases consequent with
      | list consequent =>
        cases C with
        | nil => exact .error (.lacks rfl)
        | cons alternative C =>
          cases alternative with
          | list alternative => exact .ok .sel
          | _ => exact .error (.lacks rfl)
      | _ => exact .error (.lacks rfl)

end

/-- **What an instruction comes to is described.** -/
theorem perform_outcome (op : Opcode) (store : Store) (r : Registers) :
    Outcome store op r (perform op store r) := by
  obtain ⟨stack, E, code, D⟩ := r
  cases op with
  | nil => exact .ok (.exchange [] [.nil] [] rfl rfl .nil)
  | ldc =>
    cases code with
    | nil => exact .error (.lacks rfl)
    | cons v C => exact .ok (.exchange [] [v] [v] rfl rfl (.ldc v))
  | ld => exact outcome_ld code
  | ldf =>
    cases code with
    | nil => exact .error (.lacks rfl)
    | cons block C =>
      cases block with
      | list block => exact .ok (.exchange [] [.closure block E] [.list block] rfl rfl (.ldf block))
      | _ => exact .error (.lacks rfl)
  | ap => exact outcome_of_call (.inl rfl) (fun _ _ _ _ => .ok .ap) stack
  | rap => exact outcome_rap stack
  | rtn =>
    cases stack with
    | nil => exact .error (.lacks rfl)
    | cons v S =>
      cases D with
      | nil => exact .error (.lacks rfl)
      | cons entry D =>
        cases entry with
        | call => exact .ok .rtn
        | join => exact .error (.refuses .rtn)
  | dum => exact .ok .dum
  | sel => exact outcome_sel stack code
  | join =>
    cases D with
    | nil => exact .error (.lacks rfl)
    | cons entry D =>
      cases entry with
      | call => exact .error (.refuses .join)
      | join => exact .ok .join
  | cons => exact outcome_cons stack
  | car =>
    refine outcome_of_part (.inl rfl) (fun head tail S => ?_) stack
    exact .ok (.exchange [.list (head :: tail)] [head] [] rfl rfl (.car head tail))
  | cdr =>
    refine outcome_of_part (.inr rfl) (fun head tail S => ?_) stack
    exact .ok (.exchange [.list (head :: tail)] [.list tail] [] rfl rfl (.cdr head tail))
  | consp =>
    cases stack with
    | nil => exact .error (.lacks rfl)
    | cons v S => exact .ok (.exchange [v] [.ofBool (v.kind = .list)] [] rfl rfl (.consp v))
  | pop =>
    cases stack with
    | nil => exact .error (.lacks rfl)
    | cons v S => exact .ok (.exchange [v] [] [] rfl rfl (.pop v))
  | defun =>
    cases stack with
    | nil => exact .error (.lacks rfl)
    | cons v S =>
      cases E with
      | nil => exact .error (.refuses .defun)
      | cons f E => exact .ok (.defun rfl)
  | add | sub | mul | div | eq | ne | lt | le | ht | he | and | or => exact outcome_of_calculation rfl

/-! The description is exact: what is described to succeed or to refuse does so by computation. -/

theorem Exchanges.perform_eq {E : Environment} {taken given : Stack} {operands : Code}
    (h : Exchanges store E op taken operands given) (S : Stack) (C : Code) (D : List DumpEntry) :
    perform op store ⟨taken ++ S, E, operands ++ C, D⟩ = .ok (⟨given ++ S, E, C, D⟩, .keep) := by
  cases h with
  | nil | ldc | ldf | car | cdr | consp | pop => rfl
  | ld loaded => exact (perform_ld _ _ _ _ _ _ _).trans (by rw [loaded]; rfl)
  | cons tail room => exact (perform_cons_list _ _ _ _ _ _ _).trans (if_neg (Nat.not_le_of_lt room))
  | numbers calculates result => exact (perform_numbers calculates _ _ _ _ _ _ _).trans (by rw [result]; rfl)

theorem Performs.perform_eq (h : Performs store op r r' effect) : perform op store r = .ok (r', effect) := by
  cases h with
  | exchange taken given operands _ _ exchanges => exact exchanges.perform_eq _ _ _
  | ap | rap | rtn | dum | sel | join => rfl
  | defun last =>
    simp only [perform, last]
    rfl

theorem Performs.lack?_eq_none (h : Performs store op r r' effect) : r.lack? op op.takings = none := by
  cases h with
  | exchange taken given operands _ _ exchanges =>
    cases exchanges with
    | numbers calculates => rw [Opcode.takings_of_calculation calculates]; rfl
    | _ => rfl
  | _ => rfl

theorem Refuses.perform_eq (h : Refuses store op r e) : perform op store r = .error e := by
  cases h with
  | ld missing => exact (perform_ld _ _ _ _ _ _ _).trans (by rw [missing]; rfl)
  | @rap block env args S E C D missing =>
    obtain rfl | rfl := missing
    · rfl
    · cases env with
      | nil => rfl
      | cons dummy env => rfl
  | cons deep => exact (perform_cons_list _ _ _ _ _ _ _).trans (if_pos deep)
  | pair either => obtain rfl | rfl := either <;> rfl
  | numbers calculates result => exact (perform_numbers calculates _ _ _ _ _ _ _).trans (by rw [result]; rfl)
  | rtn | join | defun => rfl

theorem Refuses.lack?_eq_none (h : Refuses store op r e) : r.lack? op op.takings = none := by
  cases h with
  | pair either => obtain rfl | rfl := either <;> rfl
  | numbers calculates => rw [Opcode.takings_of_calculation calculates]; rfl
  | _ => rfl

/-- **An instruction succeeds as it is described, and only so.** -/
theorem perform_eq_ok_iff : perform op store r = .ok (r', effect) ↔ Performs store op r r' effect := by
  refine ⟨fun h => ?_, Performs.perform_eq⟩
  have houtcome := perform_outcome op store r
  rw [h] at houtcome
  cases houtcome with
  | ok performs => exact performs

/-- An instruction that lacks something fails, since whatever else is described has all that it takes. -/
theorem perform_of_lack (h : r.lack? op op.takings = some e) : perform op store r = .error e := by
  have houtcome := perform_outcome op store r
  generalize perform op store r = result at houtcome ⊢
  cases houtcome with
  | ok performs =>
    rw [performs.lack?_eq_none] at h
    cases h
  | error fails =>
    cases fails with
    | lacks first =>
      rw [h] at first
      cases first
      rfl
    | refuses refuses =>
      rw [refuses.lack?_eq_none] at h
      cases h

/-- **An instruction fails as it is described, and only so.** -/
theorem perform_eq_error_iff : perform op store r = .error e ↔ Aborts store op r e := by
  constructor
  · intro h
    have houtcome := perform_outcome op store r
    rw [h] at houtcome
    cases houtcome with
    | error fails => exact fails
  · intro h
    cases h with
    | lacks first => exact perform_of_lack first
    | refuses refuses => exact refuses.perform_eq

/-- An instruction fails with one error. -/
theorem Aborts.unique {e' : RuntimeError} (h : Aborts store op r e) (h' : Aborts store op r e') : e = e' :=
  Except.error.inj ((perform_eq_error_iff.mpr h).symm.trans (perform_eq_error_iff.mpr h'))

end

/-! ## Machines -/

namespace Machine
variable {m : Machine}

/-- The instruction that a machine executes next stands at the front of its code. -/
theorem performs_of_next {move : Move} (h : m.next = .ok (some move)) :
    ∃ r : Registers, m.registers = { r with code := .op move.opcode move.origin :: r.code } ∧
      Performs m.store move.opcode r move.registers move.effect := by
  obtain ⟨⟨S, E, code, D⟩, store, steps⟩ := m
  rw [next] at h
  split at h
  next => cases h
  next opcode origin rest hcode =>
    obtain rfl : code = _ := hcode
    split at h
    next hperform =>
      cases h
      exact ⟨⟨S, E, rest, D⟩, rfl, perform_eq_ok_iff.mp hperform⟩
    next => cases h
  next => cases h

/-- What fails next is the instruction at the front of the code, or it is no instruction. -/
theorem aborts_of_next {e : RuntimeError} (h : m.next = .error e) :
    (∃ op origin, ∃ r : Registers, m.registers = { r with code := .op op origin :: r.code } ∧
      Aborts m.store op r e) ∨ ∃ v : Value, e = .notAnInstruction v.text := by
  obtain ⟨⟨S, E, code, D⟩, store, steps⟩ := m
  rw [next] at h
  split at h
  next => cases h
  next opcode origin rest hcode =>
    obtain rfl : code = _ := hcode
    split at h
    next => cases h
    next hperform =>
      cases h
      exact .inl ⟨opcode, origin, ⟨S, E, rest, D⟩, rfl, perform_eq_error_iff.mp hperform⟩
  next v _ _ _ =>
    cases h
    exact .inr ⟨v, rfl⟩

end Machine

end LispMachine
