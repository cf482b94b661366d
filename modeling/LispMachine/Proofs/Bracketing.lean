import LispMachine.Proofs.Outcomes
import LispMachine.Proofs.Running

/-!
# Brackets

The dump makes brackets of the instructions: `AP`, `RAP` and `SEL` put an entry on it, and `RTN` and
`JOIN` take one away. No other instruction looks at the dump, and none looks below its newest entry. So
whatever code a machine executes, what is under an entry stays as it is until the entry itself is taken,
and an entry is only taken by the instruction that belongs to it (`Performs.suffix_or_resumes`): the
other one fails on it.

What each instruction does when it succeeds is said by `Performs` (`LispMachine.Proofs.Outcomes`), and all
results here are read off it. What the machine does on the dump is a step of a stack machine with two kinds
of brackets, so that a run is an induction over its steps with the entries as the invariant.
-/

namespace LispMachine

section
variable {store : Store} {op : Opcode} {r r' : Registers} {effect : Effect}

/-! What each instruction finds and leaves, read off the registers. -/

namespace Performs

theorem of_exchange {taken S : Stack} {E : Environment} {operands C : Code} {D : List DumpEntry}
    {n : Nat} (h : Performs store op ⟨taken ++ S, E, operands ++ C, D⟩ r' effect)
    (counts : op.exchange? = some (taken.length, n)) (operandCount : op.operandCount = operands.length) :
    ∃ given : Stack, given.length = n ∧ r' = ⟨given ++ S, E, C, D⟩ := by
  generalize hr : (⟨taken ++ S, E, operands ++ C, D⟩ : Registers) = r at h
  cases h with
  | exchange taken' given operands' counts' operandCount' =>
    rw [counts', Option.some.injEq, Prod.mk.injEq] at counts
    rw [Registers.mk.injEq] at hr
    obtain ⟨hstack, rfl, hcode, rfl⟩ := hr
    obtain ⟨-, rfl⟩ := List.append_inj hstack counts.1.symm
    obtain ⟨-, rfl⟩ := List.append_inj hcode (operandCount.symm.trans operandCount'.symm)
    exact ⟨given, counts.2, rfl⟩
  | ap | rap | rtn | dum | sel | join | defun => cases counts

theorem of_ap (h : Performs store .ap r r' effect) :
    ∃ code env args S, r.stack = .closure code env :: .list args :: S ∧
      r' = ⟨[], store.size :: env, code, .call S r.env r.code :: r.dump⟩ ∧ effect = .alloc args := by
  cases h with
  | exchange _ _ _ counts => cases counts
  | ap => exact ⟨_, _, _, _, rfl, rfl, rfl⟩

theorem of_rap (h : Performs store .rap r r' effect) :
    ∃ code dummy env args S f E, r.stack = .closure code (dummy :: env) :: .list args :: S ∧
      r.env = f :: E ∧ r' = ⟨[], dummy :: env, code, .call S E r.code :: r.dump⟩ ∧
      effect = .fill dummy args := by
  cases h with
  | exchange _ _ _ counts => cases counts
  | rap => exact ⟨_, _, _, _, _, _, _, rfl, rfl, rfl, rfl⟩

theorem of_dum (h : Performs store .dum r r' effect) :
    r' = { r with env := store.size :: r.env } ∧ effect = .alloc [] := by
  cases h with
  | exchange _ _ _ counts => cases counts
  | dum => exact ⟨rfl, rfl⟩

theorem of_sel (h : Performs store .sel r r' effect) :
    ∃ condition consequent alternative S C, r.stack = condition :: S ∧
      r.code = .list consequent :: .list alternative :: C ∧
      r' = ⟨S, r.env, if condition.isTruthy then consequent else alternative, .join C :: r.dump⟩ ∧
      effect = .keep := by
  cases h with
  | exchange _ _ _ counts => cases counts
  | sel => exact ⟨_, _, _, _, _, rfl, rfl, rfl, rfl⟩

theorem of_join (h : Performs store .join r r' effect) :
    ∃ C D, r.dump = .join C :: D ∧ r' = ⟨r.stack, r.env, C, D⟩ ∧ effect = .keep := by
  cases h with
  | exchange _ _ _ counts => cases counts
  | join => exact ⟨_, _, rfl, rfl, rfl⟩

theorem of_defun (h : Performs store .defun r r' effect) :
    ∃ v S global, r.stack = v :: S ∧ r.env.getLast? = some global ∧ r' = { r with stack := S } ∧
      effect = .append global v := by
  cases h with
  | exchange _ _ _ counts => cases counts
  | defun last => exact ⟨_, _, _, rfl, last, rfl, rfl⟩

end Performs

/-! ## Entries of the dump -/

/-- The instruction that takes an entry from a dump, and what it does. -/
inductive Resumes (D : List DumpEntry) : DumpEntry → Opcode → Registers → Registers → Prop
  | call {S rest : Stack} {E env : Environment} {C code : Code} {v : Value} :
      Resumes D (.call S E C) .rtn ⟨v :: rest, env, code, .call S E C :: D⟩ ⟨v :: S, E, C, D⟩
  | join {S : Stack} {E : Environment} {C code : Code} :
      Resumes D (.join C) .join ⟨S, E, code, .join C :: D⟩ ⟨S, E, C, D⟩

namespace Resumes
variable {D : List DumpEntry} {C : Code}

theorem dump_eq {entry : DumpEntry} (h : Resumes D entry op r r') : r'.dump = D := by
  cases h with
  | call => rfl
  | join => rfl

theorem of_call {S : Stack} {E : Environment} (h : Resumes D (.call S E C) op r r') :
    op = .rtn ∧ ∃ v rest, r.stack = v :: rest ∧ r' = ⟨v :: S, E, C, D⟩ := by
  cases h with
  | call => exact ⟨rfl, _, _, rfl, rfl⟩

theorem of_join (h : Resumes D (.join C) op r r') : op = .join ∧ r' = ⟨r.stack, r.env, C, D⟩ := by
  cases h with
  | join => exact ⟨rfl, rfl⟩

end Resumes

/-- **Every instruction leaves an entry of the dump where it is, with all that is under it, unless it is
the one that takes it.** -/
theorem Performs.suffix_or_resumes (h : Performs store op r r' effect) {entry : DumpEntry}
    {D : List DumpEntry} (hsuffix : entry :: D <:+ r.dump) :
    entry :: D <:+ r'.dump ∨ Resumes D entry op r r' := by
  cases h with
  | exchange | dum | defun => exact .inl hsuffix
  | ap | rap | sel => exact .inl (hsuffix.trans (List.suffix_cons _ _))
  | rtn =>
    rcases List.suffix_cons_iff.mp hsuffix with heq | hsuffix
    · cases heq
      exact .inr .call
    · exact .inl hsuffix
  | join =>
    rcases List.suffix_cons_iff.mp hsuffix with heq | hsuffix
    · cases heq
      exact .inr .join
    · exact .inl hsuffix

/-- A machine leaves an entry of its dump where it is, unless it takes it. -/
theorem Machine.suffix_or_resumes {m : Machine} {move : Move} (h : m.next = .ok (some move))
    {entry : DumpEntry} {D : List DumpEntry} (hsuffix : entry :: D <:+ m.dump) :
    entry :: D <:+ (m.advance move).dump ∨
      ∃ r : Registers, r.stack = m.stack ∧ Resumes D entry move.opcode r (m.advance move).registers := by
  obtain ⟨r, hregisters, hperforms⟩ := performs_of_next h
  have hdump : m.dump = r.dump := by rw [dump, hregisters]
  have hstack : m.stack = r.stack := by rw [stack, hregisters]
  rw [hdump] at hsuffix
  exact (hperforms.suffix_or_resumes hsuffix).imp_right fun hresumes => ⟨r, hstack.symm, hresumes⟩

end

/-! ## Runs -/

namespace Machine

/-- A step of a run: the machine that so many steps lead to, and the instruction that it executes next. -/
structure Executes (m : Machine) (i : Nat) (before : Machine) (move : Move) : Prop where
  reached : m.after i = some before
  moves : before.next = .ok (some move)

/-- Step `j` of a run closes what step `i` has opened: it is the first of the later steps after which the
dump is no deeper than it was before step `i`. -/
structure Closes (m : Machine) (i j : Nat) (before : Machine) (opening : Move) (last : Machine)
    (closing : Move) : Prop where
  opens : m.Executes i before opening
  closes : m.Executes j last closing
  later : i < j
  back : (last.advance closing).dump.length ≤ before.dump.length
  first : ∀ k between, i < k → k < j → m.after (k + 1) = some between →
    before.dump.length < between.dump.length

variable {m before last : Machine} {move opening closing : Move} {i j : Nat}

theorem Executes.after_succ (h : m.Executes i before move) :
    m.after (i + 1) = some (before.advance move) := by
  rw [after_add h.reached, Machine.after_succ (step_eq_some_iff.mpr ⟨move, h.moves, rfl⟩)]
  rfl

/-- A run has one instruction at each of its steps. -/
theorem Executes.unique {before' : Machine} {move' : Move} (h : m.Executes i before move)
    (h' : m.Executes i before' move') : before = before' ∧ move = move' := by
  obtain rfl : before = before' := Option.some.inj (h.reached.symm.trans h'.reached)
  have hmoves := h.moves.symm.trans h'.moves
  cases hmoves
  exact ⟨rfl, rfl⟩

/-- A run that comes to a machine has executed all steps before it. -/
theorem exists_executes (h : m.after j = some last) (hlt : i < j) :
    ∃ before move, m.Executes i before move := by
  induction i generalizing m j with
  | zero =>
    obtain ⟨j, rfl⟩ := Nat.exists_eq_succ_of_ne_zero (Nat.ne_of_gt hlt)
    obtain ⟨next, hstep, -⟩ := after_eq_some_succ h
    obtain ⟨move, hmove, -⟩ := step_eq_some_iff.mp hstep
    exact ⟨m, move, rfl, hmove⟩
  | succ i ih =>
    obtain ⟨j, rfl⟩ := Nat.exists_eq_succ_of_ne_zero (Nat.ne_of_gt (Nat.zero_lt_of_lt hlt))
    obtain ⟨next, hstep, hnext⟩ := after_eq_some_succ h
    obtain ⟨before, move, hreached, hmove⟩ := ih hnext (Nat.lt_of_succ_lt_succ hlt)
    exact ⟨before, move, (Machine.after_succ hstep i).trans hreached, hmove⟩

namespace Closes

/-- While a bracket is open, the entry that opened it is on the dump, on top of all that was there. -/
theorem suffix (h : m.Closes i j before opening last closing) {entry : DumpEntry}
    (hopen : (before.advance opening).dump = entry :: before.dump) {k : Nat} (hik : i < k) (hkj : k ≤ j) :
    ∀ between, m.after k = some between → entry :: before.dump <:+ between.dump := by
  induction k with
  | zero => cases hik
  | succ k ih =>
    intro between hbetween
    rcases Nat.eq_or_lt_of_le (Nat.le_of_lt_succ hik) with rfl | hlt
    · rw [h.opens.after_succ] at hbetween
      cases hbetween
      exact hopen ▸ List.suffix_rfl
    · obtain ⟨middle, move, hk⟩ := exists_executes h.closes.reached (Nat.lt_of_succ_le hkj)
      have hsuffix := ih hlt (Nat.le_of_succ_le hkj) middle hk.reached
      have hdeep := h.first k between hlt (Nat.lt_of_succ_le hkj) hbetween
      rw [hk.after_succ] at hbetween
      cases hbetween
      -- taking the entry away would leave the dump of step `i`, before its bracket is closed
      rcases suffix_or_resumes hk.moves hsuffix with hsuffix | ⟨r, -, hresumes⟩
      · exact hsuffix
      · have hdump : (middle.advance move).dump = before.dump := hresumes.dump_eq
        rw [hdump] at hdeep
        exact absurd hdeep (Nat.lt_irrefl _)

/-- The step that closes a bracket takes the entry that opened it. -/
theorem resumes (h : m.Closes i j before opening last closing) {entry : DumpEntry}
    (hopen : (before.advance opening).dump = entry :: before.dump) :
    ∃ r : Registers, r.stack = last.stack ∧
      Resumes before.dump entry closing.opcode r (last.advance closing).registers := by
  have hsuffix := h.suffix hopen h.later (Nat.le_refl j) last h.closes.reached
  refine (suffix_or_resumes h.closes.moves hsuffix).resolve_left fun hsuffix => ?_
  exact absurd h.back (Nat.not_le_of_lt (Nat.lt_of_succ_le hsuffix.length_le))

/-- What closes a call gives the result to the caller that was saved. -/
theorem returns (h : m.Closes i j before opening last closing) {S : Stack} {E : Environment} {C : Code}
    (hopen : (before.advance opening).dump = .call S E C :: before.dump) :
    closing.opcode = .rtn ∧ ∃ result rest, last.stack = result :: rest ∧
      (last.advance closing).registers = ⟨result :: S, E, C, before.dump⟩ := by
  obtain ⟨r, hlast, hresumes⟩ := h.resumes hopen
  obtain ⟨hrtn, result, rest, hstack, hregisters⟩ := hresumes.of_call
  exact ⟨hrtn, result, rest, hlast.symm.trans hstack, hregisters⟩

/-- What closes a branch goes on with the code that was saved. -/
theorem rejoins (h : m.Closes i j before opening last closing) {C : Code}
    (hopen : (before.advance opening).dump = .join C :: before.dump) :
    closing.opcode = .join ∧ (last.advance closing).dump = before.dump ∧
      (last.advance closing).code = C := by
  obtain ⟨r, -, hresumes⟩ := h.resumes hopen
  obtain ⟨hjoin, hregisters⟩ := hresumes.of_join
  exact ⟨hjoin, hresumes.dump_eq, congrArg Registers.code hregisters⟩

end Closes

end Machine

/-- **Control is well bracketed in every run of every code.** What closes a call is a `RTN`. It leaves the
dump, the environment and the code of the caller, for `RAP` without the frame that it has filled, and the
result of the callee in the place of the closure and the arguments. What closes a `SEL` is a `JOIN`, which
leaves the dump as it was and goes on behind the two branches. -/
theorem control_is_well_bracketed (m : Machine) (i j : Nat) (before last : Machine)
    (opening closing : Move) (h : m.Closes i j before opening last closing) :
    (opening.opcode = .ap → closing.opcode = .rtn ∧
      ∃ closure args result S rest E C D,
        before.registers = ⟨closure :: .list args :: S, E, .op .ap opening.origin :: C, D⟩ ∧
        last.stack = result :: rest ∧ (last.advance closing).registers = ⟨result :: S, E, C, D⟩) ∧
    (opening.opcode = .rap → closing.opcode = .rtn ∧
      ∃ closure args result S rest f E C D,
        before.registers = ⟨closure :: .list args :: S, f :: E, .op .rap opening.origin :: C, D⟩ ∧
        last.stack = result :: rest ∧ (last.advance closing).registers = ⟨result :: S, E, C, D⟩) ∧
    (opening.opcode = .sel → closing.opcode = .join ∧ (last.advance closing).dump = before.dump ∧
      ∃ consequent alternative, before.code = .op .sel opening.origin :: .list consequent ::
        .list alternative :: (last.advance closing).code) := by
  obtain ⟨r, hbefore, hperforms⟩ := Machine.performs_of_next h.opens.moves
  have hdump : r.dump = before.dump := by rw [Machine.dump, hbefore]
  rw [hdump] at hbefore
  refine ⟨?_, ?_, ?_⟩
  · intro hop
    rw [hop] at hperforms hbefore
    obtain ⟨code, env, args, S, hstack, hr, -⟩ := hperforms.of_ap
    rw [hdump] at hr
    rw [hstack] at hbefore
    obtain ⟨hrtn, result, rest, hlast, hafter⟩ := h.returns (congrArg Registers.dump hr)
    exact ⟨hrtn, _, _, result, S, rest, _, _, _, hbefore, hlast, hafter⟩
  · intro hop
    rw [hop] at hperforms hbefore
    obtain ⟨code, dummy, env, args, S, f, E, hstack, henv, hr, -⟩ := hperforms.of_rap
    rw [hdump] at hr
    rw [hstack, henv] at hbefore
    obtain ⟨hrtn, result, rest, hlast, hafter⟩ := h.returns (congrArg Registers.dump hr)
    exact ⟨hrtn, _, _, result, S, rest, f, E, _, _, hbefore, hlast, hafter⟩
  · intro hop
    rw [hop] at hperforms hbefore
    obtain ⟨condition, consequent, alternative, S, C, -, hcode, hr, -⟩ := hperforms.of_sel
    rw [hdump] at hr
    rw [hcode] at hbefore
    obtain ⟨hjoin, hafter, rfl⟩ := h.rejoins (congrArg Registers.dump hr)
    exact ⟨hjoin, hafter, consequent, alternative, congrArg Registers.code hbefore⟩

/-- A function with a branch in it, called by `AP` or `RAP`. -/
def branchingCall (call : Opcode) : Code :=
  [.op .dum none, .op .ldc none, .list [.number 7],
    .op .ldf none, .list [.op .ld none, .number 0, .number 0,
      .op .sel none, .list [.op .ldc none, .number 1, .op .join none],
        .list [.op .ldc none, .number 2, .op .join none],
      .op .rtn none],
    .op call none]

/-- Calls of both kinds are closed by their `RTN`, and the branch inside of them by its `JOIN`. -/
theorem branching_calls_are_bracketed :
    (∃ before opening last closing,
      (Machine.ofCode (branchingCall .ap)).Closes 3 8 before opening last closing ∧
      opening.opcode = .ap ∧ closing.opcode = .rtn) ∧
    (∃ before opening last closing,
      (Machine.ofCode (branchingCall .rap)).Closes 3 8 before opening last closing ∧
      opening.opcode = .rap ∧ closing.opcode = .rtn) ∧
    (∃ before opening last closing,
      (Machine.ofCode (branchingCall .rap)).Closes 5 7 before opening last closing ∧
      opening.opcode = .sel ∧ closing.opcode = .join) := by
  have deeper : ∀ {m : Machine} {i j depth : Nat},
      (∀ k < j, i < k → ∀ between ∈ m.after (k + 1), depth < between.dump.length) →
      ∀ k between, i < k → k < j → m.after (k + 1) = some between → depth < between.dump.length :=
    fun h k between hik hkj hk => h k hkj hik between hk
  refine ⟨?_, ?_, ?_⟩
  · have hcall : ∃ before opening last closing, (Machine.ofCode (branchingCall .ap)).Closes 3 8 before
        opening last closing ∧ opening.opcode = .ap :=
      ⟨_, _, _, _, ⟨⟨rfl, rfl⟩, ⟨rfl, rfl⟩, by decide, by decide, deeper (by decide)⟩, rfl⟩
    obtain ⟨before, opening, last, closing, h, hop⟩ := hcall
    exact ⟨before, opening, last, closing, h, hop, ((control_is_well_bracketed _ _ _ _ _ _ _ h).1 hop).1⟩
  · have hcall : ∃ before opening last closing, (Machine.ofCode (branchingCall .rap)).Closes 3 8 before
        opening last closing ∧ opening.opcode = .rap :=
      ⟨_, _, _, _, ⟨⟨rfl, rfl⟩, ⟨rfl, rfl⟩, by decide, by decide, deeper (by decide)⟩, rfl⟩
    obtain ⟨before, opening, last, closing, h, hop⟩ := hcall
    exact ⟨before, opening, last, closing, h, hop, ((control_is_well_bracketed _ _ _ _ _ _ _ h).2.1 hop).1⟩
  · have hbranch : ∃ before opening last closing, (Machine.ofCode (branchingCall .rap)).Closes 5 7 before
        opening last closing ∧ opening.opcode = .sel :=
      ⟨_, _, _, _, ⟨⟨rfl, rfl⟩, ⟨rfl, rfl⟩, by decide, by decide, deeper (by decide)⟩, rfl⟩
    obtain ⟨before, opening, last, closing, h, hop⟩ := hbranch
    exact ⟨before, opening, last, closing, h, hop, ((control_is_well_bracketed _ _ _ _ _ _ _ h).2.2 hop).1⟩

end LispMachine
