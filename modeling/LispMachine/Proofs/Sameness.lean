import Mathlib.Data.List.Forall2
import LispMachine.Proofs.Origins

/-!
# Values that are the same

Two values are the same if nothing but the origins of instructions tells them apart (`Value.same_iff`), so
being the same is being equal once origins are erased. That makes it an equivalence, and no observer of values
looks at origins, so none tells values apart that are the same (`Value.LooksLike`).

Closures are the same only in the same frames. What stands in the frames makes no difference, and could not:
a frame can hold the closure whose environment names it.
-/

namespace LispMachine

namespace Value

/-- No observer tells two values apart: they are printed and inspected the same, errors call them the same, and
they are equal as truth values, in their depth, as numbers and as instructions. -/
structure LooksLike (v w : Value) : Prop where
  text : v.text = w.text
  inspect : v.inspect = w.inspect
  kind : v.kind = w.kind
  isTruthy : v.isTruthy = w.isTruthy
  depth : v.depth = w.depth
  number? : v.number? = w.number?
  opcode? : v.opcode? = w.opcode?

mutual
theorem inspect_erase : ∀ v : Value, v.erase.inspect = v.inspect
  | .list items => by
    unfold erase inspect
    rw [inspects_erase items]
  | .closure code _ => by
    unfold erase inspect
    rw [inspects_erase code]
  | .number _ | .string _ | .symbol _ | .op _ _ => rfl
theorem inspects_erase : ∀ vs : List Value, inspects (eraseAll vs) = inspects vs
  | [] => rfl
  | v :: vs => by rw [eraseAll, inspects, inspects, inspect_erase v, inspects_erase vs]
end

@[simp] theorem opcode?_erase (v : Value) : v.erase.opcode? = v.opcode? := by
  cases v <;> rfl

theorem looksLike_erase (v : Value) : v.erase.LooksLike v where
  text := text_erase v
  inspect := inspect_erase v
  kind := kind_erase v
  isTruthy := isTruthy_erase v
  depth := depth_erase v
  number? := number?_erase v
  opcode? := opcode?_erase v

theorem LooksLike.symm {v w : Value} (h : v.LooksLike w) : w.LooksLike v :=
  ⟨h.text.symm, h.inspect.symm, h.kind.symm, h.isTruthy.symm, h.depth.symm, h.number?.symm, h.opcode?.symm⟩

theorem LooksLike.trans {u v w : Value} (h : u.LooksLike v) (h' : v.LooksLike w) : u.LooksLike w :=
  ⟨h.text.trans h'.text, h.inspect.trans h'.inspect, h.kind.trans h'.kind, h.isTruthy.trans h'.isTruthy,
    h.depth.trans h'.depth, h.number?.trans h'.number?, h.opcode?.trans h'.opcode?⟩

theorem beq_iff {v w : Value} : v == w ↔ v.erase = w.erase := same_iff v w

theorem beq_equivalence : Equivalence fun v w : Value => v == w where
  refl _ := beq_iff.mpr rfl
  symm h := beq_iff.mpr (beq_iff.mp h).symm
  trans h h' := beq_iff.mpr ((beq_iff.mp h).trans (beq_iff.mp h'))

/-- Values that are the same look like what they share, their copy without origins. -/
theorem looksLike_of_beq {v w : Value} (h : v == w) : v.LooksLike w := by
  have hv := (looksLike_erase v).symm
  rw [beq_iff.mp h] at hv
  exact hv.trans (looksLike_erase w)

theorem list_beq_list_iff {xs ys : List Value} :
    Value.list xs == .list ys ↔ List.Forall₂ (fun v w : Value => v == w) xs ys := by
  simp only [beq_iff, erase_list, list.injEq]
  rw [← List.forall₂_eq_eq_eq, List.forall₂_map_left_iff, List.forall₂_map_right_iff]

theorem closure_beq_closure_iff {code code' : Code} {env env' : Environment} :
    Value.closure code env == .closure code' env' ↔ Value.list code == .list code' ∧ env = env' := by
  simp only [beq_iff, erase_closure, erase_list, closure.injEq, list.injEq]

theorem op_beq_op_iff {op op' : Opcode} {origin origin' : Option Span} :
    Value.op op origin == .op op' origin' ↔ op = op' := by
  simp [beq_iff, erase]

end Value

/-- **Being the same is an equivalence that observers respect.** Instructions are the same wherever they come from,
lists if their items are the same one by one, and closures if their codes are the same and their environments name
the same frames. This is an equivalence of values, and values that are the same look like each other. -/
theorem same_values_look_alike :
    (Equivalence fun v w : Value => v == w) ∧
    (∀ v w : Value, v == w → v.LooksLike w) ∧
    (∀ xs ys : List Value, Value.list xs == .list ys ↔ List.Forall₂ (fun v w : Value => v == w) xs ys) ∧
    (∀ (code code' : Code) (env env' : Environment),
      Value.closure code env == .closure code' env' ↔ Value.list code == .list code' ∧ env = env') ∧
    ∀ (op op' : Opcode) (origin origin' : Option Span), Value.op op origin == .op op' origin' ↔ op = op' :=
  ⟨Value.beq_equivalence, fun _ _ => Value.looksLike_of_beq, fun _ _ => Value.list_beq_list_iff,
    fun _ _ _ _ => Value.closure_beq_closure_iff, fun _ _ _ _ => Value.op_beq_op_iff⟩

/-- Two closures in the same frames, with instructions from different places. -/
theorem closures_look_alike_without_origins :
    ∃ v w : Value,
      v = .closure [.op .ldc (some ⟨4, 9⟩), .list [.op .add none, .number 1], .op .rtn none] [3, 0] ∧
      w = .closure [.op .ldc none, .list [.op .add (some ⟨0, 2⟩), .number 1], .op .rtn none] [3, 0] ∧
      v == w ∧ v.LooksLike w := by
  let v : Value := .closure [.op .ldc (some ⟨4, 9⟩), .list [.op .add none, .number 1], .op .rtn none] [3, 0]
  let w : Value := .closure [.op .ldc none, .list [.op .add (some ⟨0, 2⟩), .number 1], .op .rtn none] [3, 0]
  have hsame : v == w := by decide
  exact ⟨v, w, rfl, rfl, hsame, same_values_look_alike.2.1 v w hsame⟩

end LispMachine
