import LispMachine.Proofs.Nesting
import LispMachine.Proofs.Outcomes
import LispMachine.Proofs.Running

/-!
# Machines without origins

Where an instruction comes from is for readers of errors and traces, and makes no difference to the
machine. Erasing the origin of every instruction, in code and in the code of closures wherever they
stand, goes along with everything that the machine does: `perform_erase` says it of an instruction,
`step_erase` of a step, and `runFor_erase` of a run. So two machines that are the same but for origins
stay so (`after_erase`).

None of this holds by accident of one instruction. An instruction is described by the kinds of what it
takes and by what it does with them (`Outcome`), and a kind does not tell origins apart.
-/

namespace LispMachine

namespace Value

mutual
/-- The value without the origins of its instructions. -/
def erase : Value → Value
  | .number n => .number n
  | .string text => .string text
  | .symbol name => .symbol name
  | .op code _ => .op code none
  | .list items => .list (eraseAll items)
  | .closure code env => .closure (eraseAll code) env
/-- Values without the origins of their instructions. -/
def eraseAll : List Value → List Value
  | [] => []
  | v :: vs => v.erase :: eraseAll vs
end

@[simp] theorem eraseAll_eq_map (vs : List Value) : eraseAll vs = vs.map erase := by
  induction vs with
  | nil => rfl
  | cons v vs ih => rw [eraseAll, ih, List.map_cons]

@[simp] theorem erase_list (items : List Value) : (list items).erase = .list (items.map erase) := by
  rw [erase, eraseAll_eq_map]

@[simp] theorem erase_closure (code : Code) (env : Environment) :
    (closure code env).erase = .closure (code.map erase) env := by
  rw [erase, eraseAll_eq_map]

@[simp] theorem kind_erase (v : Value) : v.erase.kind = v.kind := by
  cases v with
  | list items => cases items <;> rfl
  | _ => rfl

@[simp] theorem items?_erase (v : Value) : v.erase.items? = v.items?.map (·.map erase) := by
  cases v with
  | list items => simp [items?]
  | _ => rfl

@[simp] theorem number?_erase (v : Value) : v.erase.number? = v.number? := by
  cases v <;> rfl

@[simp] theorem isTruthy_erase (v : Value) : v.erase.isTruthy = v.isTruthy := by
  cases v with
  | list items => cases items <;> rfl
  | _ => rfl

mutual
theorem nesting_erase : ∀ v : Value, v.erase.nesting = v.nesting
  | .list items => congrArg (· + 1) (nestings_erase items)
  | .number _ | .string _ | .symbol _ | .op _ _ | .closure _ _ => rfl
theorem nestings_erase : ∀ vs : List Value, nestings (eraseAll vs) = nestings vs
  | [] => rfl
  | v :: vs => by rw [eraseAll, nestings, nestings, nesting_erase v, nestings_erase vs]
end

@[simp] theorem depth_erase (v : Value) : v.erase.depth = v.depth := by
  rw [depth_eq_nesting, depth_eq_nesting, nesting_erase]

mutual
theorem text_erase : ∀ v : Value, v.erase.text = v.text
  | .list items => by rw [erase, text, text, texts_erase items]
  | .number _ | .string _ | .symbol _ | .op _ _ | .closure _ _ => rfl
theorem texts_erase : ∀ vs : List Value, texts (eraseAll vs) = texts vs
  | [] => rfl
  | v :: vs => by rw [eraseAll, texts, texts, text_erase v, texts_erase vs]
end

mutual
/-- Values are the same if nothing but origins tells them apart. -/
theorem same_iff : ∀ v w : Value, v.same w ↔ v.erase = w.erase
  | .list xs, w => by
    cases w with
    | list ys => rw [same, erase, erase, list.injEq, sameItems_iff xs ys]
    | _ => simp [same, erase]
  | .closure code env, w => by
    cases w with
    | closure code' env' =>
      rw [same, erase, erase, closure.injEq, Bool.and_eq_true, sameItems_iff code code', beq_iff_eq]
    | _ => simp [same, erase]
  | .number _, w | .string _, w | .symbol _, w | .op _ _, w => by cases w <;> simp [same, erase]
theorem sameItems_iff : ∀ vs ws : List Value, sameItems vs ws ↔ eraseAll vs = eraseAll ws
  | [], ws => by cases ws <;> simp [sameItems, eraseAll]
  | v :: vs, [] => by simp [sameItems, eraseAll]
  | v :: vs, w :: ws => by
    rw [sameItems, eraseAll, eraseAll, List.cons.injEq, Bool.and_eq_true, same_iff v w,
      sameItems_iff vs ws]
end

end Value

/-- A saved continuation without origins. -/
def DumpEntry.erase : DumpEntry → DumpEntry
  | .call stack env code => .call (stack.map Value.erase) env (code.map Value.erase)
  | .join code => .join (code.map Value.erase)

/-- Registers without origins. -/
def Registers.erase (r : Registers) : Registers :=
  ⟨r.stack.map Value.erase, r.env, r.code.map Value.erase, r.dump.map DumpEntry.erase⟩

/-- An effect without origins. -/
def Effect.erase : Effect → Effect
  | .keep => .keep
  | .alloc values => .alloc (values.map Value.erase)
  | .fill f values => .fill f (values.map Value.erase)
  | .append f value => .append f value.erase

/-! ## The store -/

namespace Store

/-- A store without origins. -/
def erase (s : Store) : Store := ⟨s.frames.map (·.map Value.erase)⟩

@[simp] theorem size_erase (s : Store) : s.erase.size = s.size := by
  rw [size, size, erase, Array.size_map]

@[simp] theorem contents_erase (s : Store) (f : FrameId) :
    s.erase.contents f = (s.contents f).map Value.erase := by
  simp only [contents, erase, Array.getD_eq_getD_getElem?, Array.getElem?_map]
  cases s.frames[f]? <;> rfl

theorem erase_alloc (s : Store) (values : Frame) :
    (s.alloc values).erase = s.erase.alloc (values.map Value.erase) := by
  simp [alloc, erase]

theorem erase_fill (s : Store) (f : FrameId) (values : Frame) :
    (s.fill f values).erase = s.erase.fill f (values.map Value.erase) := by
  simp [fill, erase]

theorem erase_append (s : Store) (f : FrameId) (value : Value) :
    (s.append f value).erase = s.erase.append f value.erase := by
  simp only [append, erase, mk.injEq]
  ext i : 1 <;> simp [Array.getElem_modify]
  split <;> simp

theorem erase_truncate (s : Store) (f : FrameId) (count : Nat) :
    (s.truncate f count).erase = s.erase.truncate f count := by
  simp only [truncate, erase, mk.injEq]
  ext i : 1 <;> simp [Array.getElem_modify]
  split <;> simp

theorem erase_apply (s : Store) (effect : Effect) :
    (s.apply effect).erase = s.erase.apply effect.erase := by
  cases effect with
  | keep => rfl
  | alloc values => exact erase_alloc s values
  | fill f values => exact erase_fill s f values
  | append f value => exact erase_append s f value

/-- A variable is loaded from the same place. -/
theorem load_erase (s : Store) (env : Environment) (depth offset : Number) :
    s.erase.load env depth offset = (s.load env depth offset).map Value.erase := by
  unfold load
  by_cases hneg : depth.toInt < 0 ∨ offset.toInt < 0
  · rw [if_pos hneg, if_pos hneg]
    rfl
  · rw [if_neg hneg, if_neg hneg]
    cases hframe : env[depth.toInt.toNat]? with
    | none =>
      simp only [hframe]
      rfl
    | some f =>
      simp only [hframe, get?, contents_erase, List.getElem?_map, List.length_map]
      cases (s.contents f)[offset.toInt.toNat]? <;> rfl

end Store

/-! ## Instructions

The description of instructions is carried over, clause by clause. That the machine does as described, with or
without origins, gives the equation for `perform`.
-/

namespace Registers
variable (r : Registers)

theorem offers_erase (t : Taking) : r.erase.offers t = r.offers t := by
  obtain ⟨stack, env, code, dump⟩ := r
  cases t with
  | value | list | number | closure => cases stack <;> simp [offers, erase]
  | operand | block | index => cases code <;> simp [offers, erase]
  | entry => cases dump <;> simp [offers, erase]

theorem take_erase (t : Taking) : r.erase.take t = (r.take t).erase := by
  cases t <;> simp [take, erase]

theorem complaint_erase (op : Opcode) (t : Taking) : r.erase.complaint op t = r.complaint op t := by
  obtain ⟨stack, env, code, dump⟩ := r
  cases t with
  | value | operand | entry => rfl
  | list | number | closure => cases stack <;> simp [complaint, erase]
  | block | index => cases code <;> simp [complaint, erase]

/-- Kinds are the same without origins, so that the same thing is missing. -/
theorem lack?_erase (op : Opcode) (ts : List Taking) : r.erase.lack? op ts = r.lack? op ts := by
  induction ts generalizing r with
  | nil => rfl
  | cons t ts ih => rw [lack?, lack?, offers_erase, take_erase, complaint_erase, ih]

end Registers

section
variable {store : Store} {op : Opcode} {r r' : Registers} {effect : Effect} {e : RuntimeError}

theorem Exchanges.erase {env : Environment} {taken given : Stack} {operands : Code}
    (h : Exchanges store env op taken operands given) :
    Exchanges store.erase env op (taken.map Value.erase) (operands.map Value.erase)
      (given.map Value.erase) := by
  cases h with
  | nil => exact .nil
  | ldc v => exact .ldc v.erase
  | ld loaded => exact .ld (by rw [Store.load_erase, loaded]; rfl)
  | ldf code => simpa using Exchanges.ldf (code.map Value.erase)
  | @cons head tail room =>
    rw [← Value.depth_erase] at room
    simpa using Exchanges.cons (tail.map Value.erase) room
  | car head tail => simpa using Exchanges.car head.erase (tail.map Value.erase)
  | cdr head tail => simpa using Exchanges.cdr head.erase (tail.map Value.erase)
  | consp v =>
    have hconsp : Exchanges store.erase env .consp [v.erase] [] [.ofBool (v.erase.kind = .list)] := .consp _
    rw [Value.kind_erase] at hconsp
    exact hconsp
  | pop v => exact .pop v.erase
  | numbers calculates result => exact .numbers calculates result

/-- **An instruction that succeeds does the same without origins.** -/
theorem Performs.erase (h : Performs store op r r' effect) :
    Performs store.erase op r.erase r'.erase effect.erase := by
  cases h with
  | exchange taken given operands counts operandCount exchanges =>
    simp only [Registers.erase, List.map_append]
    refine .exchange _ _ _ ?_ ?_ exchanges.erase
    · rw [List.length_map, List.length_map, counts]
    · rw [List.length_map, operandCount]
  | ap =>
    simp only [Registers.erase, List.map_cons, Value.erase_closure, Value.erase_list]
    -- the new frame has the same name, since there are as many frames
    rw [← Store.size_erase]
    exact .ap
  | rap =>
    simp only [Registers.erase, List.map_cons, Value.erase_closure, Value.erase_list]
    exact .rap
  | dum =>
    rw [← Store.size_erase]
    exact .dum
  | @sel condition consequent alternative =>
    simp only [Registers.erase, List.map_cons, Value.erase_list]
    rw [← Value.isTruthy_erase, apply_ite (List.map Value.erase)]
    exact .sel
  | rtn => exact .rtn
  | join => exact .join
  | defun last => exact .defun last

/-- **An instruction that fails does so without origins, with the same error.** -/
theorem Aborts.erase (h : Aborts store op r e) : Aborts store.erase op r.erase e := by
  cases h with
  | lacks first => exact .lacks (by rw [Registers.lack?_erase, first])
  | refuses refuses =>
    refine .refuses ?_
    cases refuses with
    | ld missing => exact .ld (by rw [Store.load_erase, missing]; rfl)
    | rap missing =>
      simp only [Registers.erase, List.map_cons, Value.erase_closure, Value.erase_list]
      exact .rap missing
    | cons deep =>
      rw [← Value.depth_erase] at deep
      simp only [Registers.erase, List.map_cons, Value.erase_list]
      exact .cons deep
    | rtn => exact .rtn
    | join => exact .join
    | pair either => exact .pair either
    | numbers calculates result => exact .numbers calculates result
    | defun => exact .defun

/-- **An instruction does the same without origins.** -/
theorem perform_erase (op : Opcode) (store : Store) (r : Registers) :
    perform op store.erase r.erase =
      (perform op store r).map fun (r, effect) => (r.erase, effect.erase) := by
  cases h : perform op store r with
  | ok result => exact (perform_eq_ok_iff.mp h).erase.perform_eq
  | error e => exact perform_eq_error_iff.mpr (perform_eq_error_iff.mp h).erase

end

/-! ## Machines -/

/-- A decided instruction without origins. -/
def Move.erase (move : Move) : Move := ⟨move.opcode, none, move.registers.erase, move.effect.erase⟩

namespace Machine

/-- A machine without origins. -/
def erase (m : Machine) : Machine := ⟨m.registers.erase, m.store.erase, m.steps⟩

theorem next_erase (m : Machine) : m.erase.next = m.next.map (Option.map Move.erase) := by
  obtain ⟨⟨stack, env, code, dump⟩, store, steps⟩ := m
  cases code with
  | nil => rfl
  | cons v rest =>
    cases v with
    | op opcode origin =>
      have hperform := perform_erase opcode store ⟨stack, env, rest, dump⟩
      simp only [Registers.erase] at hperform
      simp only [next, erase, Registers.erase, List.map_cons, Value.erase, hperform]
      cases perform opcode store ⟨stack, env, rest, dump⟩ <;> rfl
    | list items =>
      have htext := Value.text_erase (.list items)
      exact congrArg (Except.error ∘ RuntimeError.notAnInstruction) htext
    | _ => rfl

theorem advance_erase (m : Machine) (move : Move) :
    (m.advance move).erase = m.erase.advance move.erase := by
  simp only [advance, erase, Store.erase_apply]
  rfl

theorem step_erase (m : Machine) : m.erase.step = m.step.map (Option.map erase) := by
  unfold step
  rw [next_erase]
  cases m.next with
  | error e => rfl
  | ok move =>
    cases move with
    | none => rfl
    | some move =>
      show Except.ok (some (m.erase.advance move.erase)) = _
      rw [← advance_erase]
      rfl

/-- Single steps come to the same machines. -/
theorem after_erase (n : Nat) (m : Machine) : m.erase.after n = (m.after n).map erase := by
  induction n generalizing m with
  | zero => rfl
  | succ n ih =>
    rw [after, after, step_erase]
    cases m.step with
    | error e => rfl
    | ok next =>
      cases next with
      | none => rfl
      | some next => exact ih next

/-- A run comes to the same end. -/
theorem runFor_erase (limit budget : Nat) (m : Machine) :
    runFor limit budget m.erase =
      ((runFor limit budget m).1.map (Option.map Value.erase), (runFor limit budget m).2.erase) := by
  have htop : ∀ m : Machine, m.erase.top = m.top.map Value.erase := by
    intro m
    exact List.head?_map
  have hhalted : ∀ m : Machine, m.erase.isHalted = m.isHalted := by
    intro m
    exact List.isEmpty_map
  induction budget generalizing m with
  | zero =>
    rw [runFor, runFor, hhalted, htop]
    cases m.isHalted <;> rfl
  | succ budget ih =>
    rw [runFor, runFor, next_erase, htop]
    cases m.next with
    | error e => rfl
    | ok move =>
      cases move with
      | none => rfl
      | some move =>
        show runFor limit budget (m.erase.advance move.erase) = _
        rw [← advance_erase]
        exact ih (m.advance move)

end Machine

end LispMachine
