import LispMachine.Proofs.Acceptance
import LispMachine.Proofs.Literals

/-!
# What stands in code

Code is a list of values, and the blocks of its functions and branches are lists in it. A value stands in
another at any depth (`Value.StandsIn`), and an instruction stands in code in front of its operands
(`Code.HasInstruction`), so that one can speak of every instruction of a program without going through its
blocks one after the other.

What stands in a list is less deep than the list, and code is no deeper than sources may be
(`compiled_code_is_shallow`). So no literal of a program comes near the limit on data.
-/

namespace LispMachine

/-- A value stands in another: it is that value, or it stands in an item of it. -/
inductive Value.StandsIn (v : Value) : Value → Prop
  | here : StandsIn v v
  | item {w : Value} {items : List Value} (hmem : w ∈ items) (hin : StandsIn v w) : StandsIn v (.list items)

/-- An instruction stands in code in front of the operands that it takes. -/
def Code.HasInstruction (code : Code) (op : Opcode) (origin : Option Span) (operands : List Value) : Prop :=
  ∃ before after, code = before ++ .op op origin :: (operands ++ after) ∧ operands.length = op.operandCount

section
variable {v w : Value} {items code operands : List Value} {op : Opcode} {origin : Option Span}

theorem Value.StandsIn.trans {u : Value} (h : u.StandsIn v) (h' : v.StandsIn w) : u.StandsIn w := by
  induction h' with
  | here => exact h
  | item hmem _ ih => exact .item hmem ih

theorem Code.HasInstruction.operand_mem (h : HasInstruction code op origin operands) (hv : v ∈ operands) :
    v ∈ code := by
  obtain ⟨before, after, rfl, -⟩ := h
  exact List.mem_append_right _ (List.mem_cons_of_mem _ (List.mem_append_left _ hv))

theorem Code.not_hasInstruction_nil : ¬ HasInstruction [] op origin operands := by
  rintro ⟨before, after, hcode, -⟩
  exact absurd hcode.symm (List.append_ne_nil_of_right_ne_nil _ (List.cons_ne_nil _ _))

/-- What stands in a list is the list, or stands in one of its items. -/
theorem Value.standsIn_list : v.StandsIn (.list items) ↔ v = .list items ∨ ∃ w ∈ items, v.StandsIn w := by
  constructor
  · rintro (_ | ⟨hmem, hin⟩)
    · exact .inl rfl
    · exact .inr ⟨_, hmem, hin⟩
  · rintro (rfl | ⟨w, hmem, hin⟩)
    · exact .here
    · exact .item hmem hin

/-- An instruction of code is the first, or an instruction of the code behind the operands of the first. No
operand is an instruction itself. -/
theorem Code.HasInstruction.of_cons {first : Opcode} {origin' : Option Span} {taken rest : List Value}
    (h : HasInstruction (.op first origin' :: (taken ++ rest)) op origin operands)
    (hcount : taken.length = first.operandCount) (htaken : ∀ op origin, Value.op op origin ∉ taken) :
    (op = first ∧ origin = origin' ∧ operands = taken) ∨ HasInstruction rest op origin operands := by
  obtain ⟨before, after, hcode, hoperands⟩ := h
  cases before with
  | nil =>
    obtain ⟨hop, htail⟩ := List.cons.inj hcode
    cases hop
    exact .inl ⟨rfl, rfl, (List.append_inj htail (hcount.trans hoperands.symm)).1.symm⟩
  | cons w before =>
    obtain ⟨-, htail⟩ := List.cons.inj hcode
    obtain ⟨before', -, hrest⟩ | ⟨more, htaken', htail⟩ := List.append_eq_append_iff.mp htail
    · exact .inr ⟨before', after, hrest, hoperands⟩
    · cases more with
      | nil => exact .inr ⟨[], after, htail.symm, hoperands⟩
      | cons u more =>
        obtain ⟨rfl, -⟩ := List.cons.inj htail
        exact absurd (htaken' ▸ List.mem_append_right _ List.mem_cons_self) (htaken op origin)

theorem Value.nesting_le_nestings (h : v ∈ items) : v.nesting ≤ nestings items := by
  induction items with
  | nil => cases h
  | cons w items ih =>
    rw [nestings]
    rcases List.mem_cons.mp h with rfl | hmem
    · exact Nat.le_max_left ..
    · exact Nat.le_trans (ih hmem) (Nat.le_max_right ..)

/-- A list is deeper than its items. -/
theorem Value.nesting_lt_of_mem (h : v ∈ items) : v.nesting < (list items).nesting :=
  Nat.lt_succ_of_le (nesting_le_nestings h)

theorem Value.StandsIn.nesting_le (h : v.StandsIn w) : v.nesting ≤ w.nesting := by
  induction h with
  | here => exact Nat.le_refl _
  | item hmem _ ih => exact Nat.le_trans ih (Nat.le_of_lt (nesting_lt_of_mem hmem))

end

/-- **The limit on sources bounds the code.** Code as one list, its blocks and its data alike, is nested no
deeper than a source may be. In particular every literal that stands anywhere in it behind a load is less
deep than data may become. -/
theorem compiled_code_is_shallow (d : Dialect) (globals : List String) (source : String) (c : Compiled)
    (hcompile : compile d globals source = .ok c) :
    (Value.list c.code).depth ≤ maxNesting ∧
    ∀ block origin v, (Value.list block).StandsIn (.list c.code) →
      Code.HasInstruction block .ldc origin [v] → v.depth < maxDataDepth := by
  obtain ⟨p, hp, rfl⟩ := compile_eq_ok_iff.mp hcompile
  have hitems : Value.nestings p.code ≤ maxNesting - 1 :=
    nestings_le_of_allWithin _ (Program.code_within_of_ofRun hp)
  have hcode : (Value.list p.code).nesting ≤ maxNesting := Nat.succ_le_succ hitems
  simp only [Value.depth_eq_nesting]
  refine ⟨hcode, fun block origin v hblock hload => ?_⟩
  calc v.nesting < (Value.list block).nesting :=
        Value.nesting_lt_of_mem (hload.operand_mem List.mem_cons_self)
    _ ≤ (Value.list p.code).nesting := hblock.nesting_le
    _ ≤ maxNesting := hcode
    _ ≤ maxDataDepth := by decide

/-- A list in a branch of a function in a recursive binding. -/
theorem branch_of_function_is_shallow :
    ∃ c, compile {} [] "(letrec ((f (lambda (x) (if x '(1 ((2))) `(a ,x))))) (f 1))" = .ok c ∧
      (Value.list c.code).depth = 6 ∧ (Value.list c.code).depth ≤ maxNesting ∧
      ∀ block origin v, (Value.list block).StandsIn (.list c.code) →
        Code.HasInstruction block .ldc origin [v] → v.depth < maxDataDepth := by
  have hdepth : (compile {} [] "(letrec ((f (lambda (x) (if x '(1 ((2))) `(a ,x))))) (f 1))").toOption.any
      fun c => decide ((Value.list c.code).depth = 6) := by
    decide +kernel
  obtain ⟨c, hc, hsix⟩ := Except.exists_of_any hdepth
  exact ⟨c, hc, of_decide_eq_true hsix, compiled_code_is_shallow {} [] _ c hc⟩

end LispMachine
