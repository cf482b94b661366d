import LispMachine.Proofs.Driving
import LispMachine.Proofs.Erasure

/-!
# Origins do not matter to a machine

The machine that a failing instruction leaves is found by looking at what the instruction takes, kind by
kind. Kinds are the same without origins, so erasing origins goes along with failing instructions
(`failed_erase`), as it does with those that are executed. Hence a call reports the same on a machine
without origins, and leaves the same machine without origins (`call_erase`), and so does a whole sequence
of calls (`calls_erase`).
-/

namespace LispMachine

namespace Registers
variable (r : Registers)

theorem takeAll_erase (ts : List Taking) : r.erase.takeAll ts = (r.takeAll ts).erase := by
  induction ts generalizing r with
  | nil => rfl
  | cons t ts ih =>
    rw [takeAll, takeAll, offers_erase, take_erase]
    split
    · exact ih (r.take t)
    · rfl

theorem leftover_erase (op : Opcode) : r.erase.leftover op = (r.leftover op).erase := by
  obtain ⟨stack, env, code, dump⟩ := r
  cases op with
  | rap =>
    cases env with
    | cons f env => simp [leftover, erase, Effect.erase]
    | nil =>
      cases stack with
      | nil => rfl
      | cons v stack =>
        cases v with
        | closure code captured =>
          cases captured with
          | nil => simp [leftover, erase, Effect.erase, Value.erase]
          | cons dummy captured =>
            cases stack with
            | nil => simp [leftover, erase, Effect.erase, Value.erase]
            | cons args stack => cases args <;> simp [leftover, erase, Effect.erase, Value.erase]
        | _ => simp [leftover, erase, Effect.erase, Value.erase]
  | _ => rfl

end Registers

namespace Machine
variable (m : Machine)

theorem failed_erase : m.erase.failed = m.failed.erase := by
  obtain ⟨⟨stack, env, code, dump⟩, store, steps⟩ := m
  cases code with
  | nil => rfl
  | cons v rest =>
    cases v with
    | op opcode origin =>
      have htaken := Registers.takeAll_erase ⟨stack, env, rest, dump⟩ opcode.takings
      have hleft := Registers.leftover_erase ⟨stack, env, rest, dump⟩ opcode
      simp only [Registers.erase] at htaken hleft
      simp only [failed, erase, Registers.erase, List.map_cons, Value.erase, htaken, hleft,
        Store.erase_apply]
    | list items => simp [failed, erase, Registers.erase]
    | closure code env => simp [failed, erase, Registers.erase]
    | _ => rfl

/-- A call reports the same without origins, and leaves the same machine without origins. -/
theorem call_erase : m.erase.call = (m.call.1, m.call.2.erase) := by
  have hnext' := next_erase m
  obtain hhalt | ⟨e, hnext⟩ | ⟨move, hnext⟩ := m.next_cases
  · rw [next_of_isHalted hhalt] at hnext'
    rw [call_of_isHalted hhalt, call_of_isHalted (isHalted_of_next hnext')]
  · rw [hnext] at hnext'
    rw [call_of_error hnext, call_of_error hnext', failed_erase]
  · rw [hnext] at hnext'
    rw [call_of_move hnext, call_of_move hnext', advance_erase]

/-- Calls for one instruction after the other report the same without origins, and leave the same machine
without origins. -/
theorem calls_erase (n : Nat) : m.erase.calls n = ((m.calls n).1, (m.calls n).2.erase) := by
  induction n generalizing m with
  | zero => rfl
  | succ n ih => simp only [calls, call_erase, ih]

/-- Two machines of which the second is the first without origins. -/
structure Unmarked (m m' : Machine) : Prop where
  steps : m'.steps = m.steps
  stack : m'.stack = m.stack.map Value.erase
  env : m'.env = m.env
  /-- The frames, which the environments of both machines and of all their closures share. -/
  frames : ∀ f, m'.store.contents f = (m.store.contents f).map Value.erase
  code : m'.code = m.code.map Value.erase
  dump : m'.dump = m.dump.map DumpEntry.erase

theorem unmarked_erase : m.Unmarked m.erase := ⟨rfl, rfl, rfl, m.store.contents_erase, rfl, rfl⟩

/-- **Origins never influence evaluation.** A machine on code without origins, over frames without origins,
gives the same answer to every call, the identical error included, and stays the machine on the original
code without its origins. -/
theorem origins_never_influence_evaluation (code : Code) (env : Environment) (store : Store) (n : Nat) :
    ((start (code.map Value.erase) env store.erase).calls n).1 = ((start code env store).calls n).1 ∧
      ((start code env store).calls n).2.Unmarked
        ((start (code.map Value.erase) env store.erase).calls n).2 := by
  have herase : start (code.map Value.erase) env store.erase = (start code env store).erase := rfl
  rw [herase, calls_erase]
  exact ⟨rfl, unmarked_erase _⟩

end Machine

end LispMachine
