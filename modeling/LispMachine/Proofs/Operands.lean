import Mathlib.Data.List.Forall2
import LispMachine.Machine.Driving
import LispMachine.Proofs.Bracketing
import LispMachine.Proofs.Provenance

/-!
# Instructions and their operands

How long an instruction is, is said in three places: a table counts its operands (`Opcode.operandCount`), code is
emitted with the operands in their places, and the machine takes them one by one when it executes the
instruction. The table is for those who look at code from outside. Neither the code nor the machine is made with
it, but both are as it says.

What an instruction takes from the code behind it (`Opcode.Takes`) is as many values as the table counts. Compiled
code can be split into instructions that each stand in front of what they take (`Code.Splits`), and so can every
block in it, because the code of every form is laid out in this way (`Expr.code_laidOut`). And an instruction that
succeeds, in whatever code, has taken just that from the code (`Performs.leaves_rest`).
-/

namespace LispMachine

/-! ## What instructions take from the code -/

/-- Whether something is taken from the code. All else is taken from the stack or from the dump. -/
def Taking.isOperand : Taking → Bool
  | operand | block | index => true
  | value | list | number | closure | entry => false

/-- The value in the code is of the kind that is to be taken. -/
inductive Taking.Accepts : Taking → Value → Prop
  | operand (v : Value) : Accepts .operand v
  | block (code : Code) : Accepts .block (.list code)
  | index (n : Number) : Accepts .index (.number n)

/-- What an instruction takes from the code, in order. -/
def Opcode.fetches (op : Opcode) : List Taking := op.takings.filter Taking.isOperand

/-- The values are what an instruction takes from the code. -/
def Opcode.Takes (op : Opcode) (operands : List Value) : Prop :=
  List.Forall₂ Taking.Accepts op.fetches operands

namespace Opcode
variable {op : Opcode} {operands : List Value}

/-- **The table counts what is taken.** -/
theorem length_fetches (op : Opcode) : op.fetches.length = op.operandCount := by
  cases op <;> rfl

theorem Takes.length_eq (h : op.Takes operands) : operands.length = op.operandCount :=
  (List.Forall₂.length_eq h).symm.trans op.length_fetches

theorem takes_nil (h : op.operandCount = 0) : op.Takes [] := by
  have hfetches : op.fetches = [] := List.length_eq_zero_iff.mp (op.length_fetches.trans h)
  rw [Takes, hfetches]
  exact .nil

theorem takes_ld (depth offset : Number) : Opcode.ld.Takes [.number depth, .number offset] :=
  .cons (.index depth) (.cons (.index offset) .nil)

theorem takes_ldc (v : Value) : Opcode.ldc.Takes [v] := .cons (.operand v) .nil

theorem takes_ldf (block : Code) : Opcode.ldf.Takes [.list block] := .cons (.block block) .nil

theorem takes_sel (consequent alternative : Code) :
    Opcode.sel.Takes [.list consequent, .list alternative] :=
  .cons (.block consequent) (.cons (.block alternative) .nil)

end Opcode

/-! ## Code that splits into instructions -/

/-- The code splits exactly into instructions, each in front of as many operands as the table says. They are what
the instruction takes, and none of them is an instruction itself. -/
inductive Code.Splits : Code → Prop
  | nil : Splits []
  | cons {op : Opcode} {origin : Option Span} {operands rest : List Value}
    (hcount : operands.length = op.operandCount) (htakes : op.Takes operands)
    (hatoms : ∀ op' origin', Value.op op' origin' ∉ operands) (hrest : Splits rest) :
    Splits (.op op origin :: (operands ++ rest))

/-- A block of the code at any depth: the code itself, or an operand of an `LDF` or a `SEL` in such a block. -/
inductive Code.HasBlock (code : Code) : Code → Prop
  | whole : HasBlock code code
  | operand {outer block : Code} {op : Opcode} {origin : Option Span} {operands : List Value}
    (houter : HasBlock code outer) (hop : op = .ldf ∨ op = .sel)
    (hhas : outer.HasInstruction op origin operands) (hmem : .list block ∈ operands) : HasBlock code block

/-- Code that splits into instructions, with blocks that are laid out so as well. -/
inductive Code.LaidOut : Code → Prop
  | nil : LaidOut []
  | cons {op : Opcode} {origin : Option Span} {operands rest : List Value} (htakes : op.Takes operands)
    (hatoms : ∀ op' origin', Value.op op' origin' ∉ operands)
    (hblocks : op = .ldf ∨ op = .sel → ∀ block, .list block ∈ operands → LaidOut block)
    (hrest : LaidOut rest) : LaidOut (.op op origin :: (operands ++ rest))

namespace Code.LaidOut
variable {code more block : Code} {op : Opcode} {origin : Option Span} {operands : List Value}

theorem splits (h : LaidOut code) : Splits code := by
  induction h with
  | nil => exact .nil
  | cons htakes hatoms _ _ _ ih => exact .cons htakes.length_eq htakes hatoms ih

theorem of_hasInstruction (h : LaidOut code) (hop : op = .ldf ∨ op = .sel)
    (hhas : code.HasInstruction op origin operands) (hmem : .list block ∈ operands) : LaidOut block := by
  induction h with
  | nil => exact absurd hhas Code.not_hasInstruction_nil
  | cons htakes hatoms hblocks _ _ ih =>
    -- an instruction found anywhere is one of those that the code splits into, as no operand is one
    obtain ⟨rfl, -, rfl⟩ | hrest := hhas.of_cons htakes.length_eq hatoms
    · exact hblocks hop block hmem
    · exact ih hrest

theorem of_hasBlock (h : LaidOut code) (hblock : code.HasBlock block) : LaidOut block := by
  induction hblock with
  | whole => exact h
  | operand _ hop hhas hmem ih => exact ih.of_hasInstruction hop hhas hmem

theorem append (h : LaidOut code) (hmore : LaidOut more) : LaidOut (code ++ more) := by
  induction h with
  | nil => exact hmore
  | cons htakes hatoms hblocks _ _ ih =>
    rw [List.cons_append, List.append_assoc]
    exact .cons htakes hatoms hblocks ih

/-- An instruction without operands, and more code. -/
theorem plain (hcount : op.operandCount = 0) (hcode : LaidOut code) : LaidOut (.op op origin :: code) := by
  have hcons : LaidOut (.op op origin :: ([] ++ code)) :=
    .cons (Opcode.takes_nil hcount) (fun _ _ => List.not_mem_nil) (fun _ _ hmem => nomatch hmem) hcode
  exact hcons

/-- An instruction that takes no block, with its operands. -/
theorem load (htakes : op.Takes operands) (hatoms : ∀ op' origin', Value.op op' origin' ∉ operands)
    (hop : ¬ (op = .ldf ∨ op = .sel)) : LaidOut (.op op origin :: operands) := by
  have hcons : LaidOut (.op op origin :: (operands ++ [])) :=
    .cons htakes hatoms (fun hblocks => absurd hblocks hop) .nil
  rwa [List.append_nil] at hcons

theorem constant {v : Value} {span : Span} (hv : v.IsData) : LaidOut (Code.constant span v) := by
  refine load (Opcode.takes_ldc v) (fun op' origin' hmem => ?_) (by decide)
  cases List.mem_singleton.mp hmem
  exact hv op' origin' .here

/-- An instruction in front of the blocks that it takes, and more code. -/
theorem blocks {blocks : List Code} (htakes : op.Takes (blocks.map .list))
    (hblocks : ∀ block ∈ blocks, LaidOut block) (hcode : LaidOut code) :
    LaidOut (.op op origin :: (blocks.map .list ++ code)) := by
  refine .cons htakes (fun op' origin' hmem => ?_) (fun _ block hmem => ?_) hcode
  · obtain ⟨block, -, hop⟩ := List.mem_map.mp hmem
    cases hop
  · obtain ⟨block', hmem, hblock⟩ := List.mem_map.mp hmem
    cases hblock
    exact hblocks block hmem

theorem sequence {span : Span} {codes : List Code} (h : ∀ code ∈ codes, LaidOut code) :
    LaidOut (Code.sequence span codes) :=
  Code.sequence_induction append .nil (.plain rfl .nil) h

theorem list {span : Span} {items : List Code} (h : ∀ code ∈ items, LaidOut code) :
    LaidOut (Code.list span items) :=
  Code.list_induction append (.plain rfl .nil) (.plain rfl .nil) h

/-- A function that is loaded, and more code. -/
theorem function {parens : Parens} {span : Span} {body : List Code} (hbody : ∀ code ∈ body, LaidOut code)
    (hcode : LaidOut code) : LaidOut (instr .ldf span :: Code.function parens body :: code) := by
  have hblock : LaidOut (Code.sequence parens.opening body ++ [instr .rtn parens.span]) :=
    (sequence hbody).append (.plain rfl .nil)
  exact blocks (Opcode.takes_ldf _) (List.forall_mem_singleton.mpr hblock) hcode

/-- Two branches. -/
theorem branches {span : Span} (hcode : LaidOut code) (hmore : LaidOut more) :
    LaidOut [instr .sel span, Code.branch span code, Code.branch span more] := by
  have hjoin : ∀ {code : Code}, LaidOut code → LaidOut (code ++ [instr .join span]) :=
    fun hcode => hcode.append (.plain rfl .nil)
  exact blocks (Opcode.takes_sel _ _)
    (List.forall_mem_cons.mpr ⟨hjoin hcode, List.forall_mem_singleton.mpr (hjoin hmore)⟩) .nil

end Code.LaidOut

/-! ## The code of forms -/

mutual
/-- The code of a form is laid out, in whatever scope the form stands. -/
theorem Expr.code_laidOut : ∀ e : Expr, e.code.LaidOut
  | .literal _ l => .constant l.value_isData
  | .null _ => .plain rfl .nil
  | .var _ _ address =>
    .load (Opcode.takes_ld (.ofIndex address.depth) (.ofIndex address.offset)) (by simp) (by decide)
  | .quote _ d | .quoteForm _ d => .constant d.value_isData
  | .quasi span t => t.code_laidOut span
  | .unary _ op e => e.code_laidOut.append (.plain op.operandCount_opcode .nil)
  | .binary _ op l r => (r.code_laidOut.append l.code_laidOut).append (.plain op.operandCount_opcode .nil)
  | .ifElse _ c t e => c.code_laidOut.append (.branches t.code_laidOut e.code_laidOut)
  | .lambda _ _ body => .function (codes_laidOut body) .nil
  | .letIn _ bindings body =>
    (Code.LaidOut.list (initCodes_laidOut bindings)).append (.function (codes_laidOut body) (.plain rfl .nil))
  | .letrec _ bindings body =>
    .plain rfl ((Code.LaidOut.list (initCodes_laidOut bindings)).append
      (.function (codes_laidOut body) (.plain rfl .nil)))
  | .sequence _ forms => .sequence (codes_laidOut forms)
  | .app _ function args =>
    ((Code.LaidOut.list (codes_laidOut args)).append function.code_laidOut).append (.plain rfl .nil)
theorem codes_laidOut : ∀ es : List Expr, ∀ code ∈ codes es, code.LaidOut
  | [] => List.forall_mem_nil _
  | e :: es => List.forall_mem_cons.mpr ⟨e.code_laidOut, codes_laidOut es⟩
theorem initCodes_laidOut : ∀ bindings : List (String × Expr), ∀ code ∈ initCodes bindings, code.LaidOut
  | [] => List.forall_mem_nil _
  | (_, e) :: rest => List.forall_mem_cons.mpr ⟨e.code_laidOut, initCodes_laidOut rest⟩
theorem Template.code_laidOut : ∀ (t : Template) (span : Span), (t.code span).LaidOut
  | .hole e, _ => e.code_laidOut
  | .datum d, _ => .constant d.value_isData
  | .list parens items, _ => by
    rw [Template.code]
    split
    next vs hvs => exact .constant (Value.isData_list (values?_areData items hvs))
    next => exact .list (templateCodes_laidOut items parens.span)
theorem templateCodes_laidOut : ∀ (items : List Template) (span : Span),
    ∀ code ∈ templateCodes span items, code.LaidOut
  | [], _ => List.forall_mem_nil _
  | t :: rest, span => List.forall_mem_cons.mpr ⟨t.code_laidOut span, templateCodes_laidOut rest span⟩
end

theorem TopForm.code_laidOut (form : TopForm) : form.code.LaidOut := by
  cases form with
  | value span e => exact e.code_laidOut
  | defineVariable parens name e => exact e.code_laidOut.append (.plain rfl .nil)
  | defineFunction parens name params body => exact .function (codes_laidOut body) (.plain rfl .nil)

theorem TopForm.drop_laidOut (form : TopForm) : Code.LaidOut form.drop := by
  cases form with
  | value span e => exact .plain rfl .nil
  | defineVariable | defineFunction => exact .nil

/-- **The code of every program is laid out.** -/
theorem Program.code_laidOut (p : Program) : p.code.LaidOut :=
  Program.code_induction .append .nil fun form _ => ⟨form.code_laidOut, form.drop_laidOut⟩

/-! ## What the machine leaves of the code -/

/-- The code that an entry of the dump goes on with. -/
def DumpEntry.code : DumpEntry → Code
  | call _ _ code | join code => code

section
variable {store : Store} {op : Opcode} {r r' : Registers} {effect : Effect}

theorem Exchanges.takes {env : Environment} {taken given : Stack} {operands : Code}
    (h : Exchanges store env op taken operands given) (hcount : operands.length = op.operandCount) :
    op.Takes operands := by
  cases h with
  | ldc v => exact Opcode.takes_ldc v
  | ld => exact Opcode.takes_ld _ _
  | ldf code => exact Opcode.takes_ldf code
  | nil | cons | car | cdr | consp | pop | numbers => exact Opcode.takes_nil hcount.symm

/-- **An instruction that succeeds has taken its operands from the code, and nothing else.** The machine goes on
with what is left, or saves it on the dump when it enters a block. -/
theorem Performs.leaves_rest (h : Performs store op r r' effect) :
    ∃ operands rest, r.code = operands ++ rest ∧ op.Takes operands ∧
      (op ∉ [.ap, .rap, .rtn, .join, .sel] → r'.code = rest) ∧
      (op ∈ [.ap, .rap, .sel] → ∃ entry, r'.dump = entry :: r.dump ∧ entry.code = rest) := by
  cases h with
  | exchange taken given operands counts operandCount exchanges =>
    refine ⟨operands, _, rfl, exchanges.takes operandCount, fun _ => rfl, fun hop => ?_⟩
    simp only [List.mem_cons, List.not_mem_nil, or_false] at hop
    -- none of the three exchanges values on the stack
    rcases hop with rfl | rfl | rfl <;> cases counts
  | ap | rap =>
    exact ⟨[], _, rfl, Opcode.takes_nil rfl, fun hop => absurd (by decide) hop, fun _ => ⟨_, rfl, rfl⟩⟩
  | rtn | join =>
    exact ⟨[], _, rfl, Opcode.takes_nil rfl, fun hop => absurd (by decide) hop, fun hop => absurd hop (by decide)⟩
  | dum | defun => exact ⟨[], _, rfl, Opcode.takes_nil rfl, fun _ => rfl, fun hop => absurd hop (by decide)⟩
  | @sel _ consequent alternative =>
    exact ⟨[.list consequent, .list alternative], _, rfl, Opcode.takes_sel consequent alternative,
      fun hop => absurd (by decide) hop, fun _ => ⟨_, rfl, rfl⟩⟩

/-- With the table there is one way to split off the first instruction. -/
theorem Code.instruction_unique {op op' : Opcode} {origin origin' : Option Span}
    {operands operands' rest rest' : List Value} (hcount : operands.length = op.operandCount)
    (hcount' : operands'.length = op'.operandCount)
    (h : Value.op op origin :: (operands ++ rest) = .op op' origin' :: (operands' ++ rest')) :
    op = op' ∧ operands = operands' ∧ rest = rest' := by
  obtain ⟨hop, hbehind⟩ := List.cons.inj h
  cases hop
  exact ⟨rfl, List.append_inj hbehind (hcount.trans hcount'.symm)⟩

end

/-- **The table of operand counts, the layout of code and the machine agree.** Compiled code and each block in it, at
every depth, splits exactly into instructions with as many operands behind them as the table says. And a machine in
any state, with any code, that executes an instruction has found just as many operands behind it. It goes on with
the code behind them, and a call or a branch saves that code in the entry that it puts on the dump. -/
theorem code_is_laid_out_as_it_is_fetched :
    (∀ (d : Dialect) (globals : List String) (source : String) (c : Compiled),
      compile d globals source = .ok c → ∀ block, c.code.HasBlock block → block.Splits) ∧
    ∀ m m' : Machine, m.step = .ok (some m') → ∃ op origin operands rest,
      m.code = .op op origin :: (operands ++ rest) ∧
      operands.length = op.operandCount ∧ op.Takes operands ∧
      (op ∉ [.ap, .rap, .rtn, .join, .sel] → m'.code = rest) ∧
      (op ∈ [.ap, .rap, .sel] → ∃ entry, m'.dump = entry :: m.dump ∧ entry.code = rest) := by
  constructor
  · intro d globals source c hcompile block hblock
    obtain ⟨p, -, rfl⟩ := compile_eq_ok_iff.mp hcompile
    exact (p.code_laidOut.of_hasBlock hblock).splits
  · intro m m' hstep
    obtain ⟨move, hmove, rfl⟩ := Machine.step_eq_some_iff.mp hstep
    obtain ⟨r, hregisters, hperforms⟩ := Machine.performs_of_next hmove
    obtain ⟨operands, rest, hrest, htakes, hleaves, hsaves⟩ := hperforms.leaves_rest
    have hcode : m.code = .op move.opcode move.origin :: (operands ++ rest) := by
      rw [Machine.code, hregisters, hrest]
    have hdump : m.dump = r.dump := by rw [Machine.dump, hregisters]
    exact ⟨move.opcode, move.origin, operands, rest, hcode, htakes.length_eq, htakes, hleaves, hdump ▸ hsaves⟩

/-- A function with two branches, and a machine that calls such a function in front of more code: what it does not
execute next is what the table leaves. -/
theorem branch_in_called_function_is_fetched :
    let branch : Value := .list [.op .ldc none, .number 1, .op .join none]
    let body : Value := .list [.op .ldc none, .number 5, .op .sel none, branch, branch, .op .rtn none]
    let m := Machine.ofCode [.op .nil none, .op .ldf none, body, .op .ap none, .op .consp none]
    (∃ c, compile {} [] "((lambda (x) (if x '(1 y) (+ x 1))) 0)" = .ok c ∧ (Value.list c.code).depth = 4 ∧
      ∀ block, c.code.HasBlock block → block.Splits) ∧
    (∃ before after, m.after 1 = some before ∧ before.step = .ok (some after) ∧
      after.code = [.op .ap none, .op .consp none]) ∧
    (∃ before after, m.after 2 = some before ∧ before.step = .ok (some after) ∧
      ∃ entry, after.dump = entry :: before.dump ∧ entry.code = [.op .consp none]) ∧
    ∃ before after, m.after 4 = some before ∧ before.step = .ok (some after) ∧
      ∃ entry, after.dump = entry :: before.dump ∧ entry.code = [.op .rtn none] := by
  intro branch body m
  obtain ⟨hsplits, hfetches⟩ := code_is_laid_out_as_it_is_fetched
  have hdepth : (compile {} [] "((lambda (x) (if x '(1 y) (+ x 1))) 0)").toOption.any
      fun c => decide ((Value.list c.code).depth = 4) := by
    decide +kernel
  have hrest : ∀ {before after : Machine} {op : Opcode} {origin : Option Span} {rest : Code} (operands : List Value),
      before.step = .ok (some after) → before.code = .op op origin :: (operands ++ rest) →
      operands.length = op.operandCount →
      (op ∉ [.ap, .rap, .rtn, .join, .sel] → after.code = rest) ∧
      (op ∈ [.ap, .rap, .sel] → ∃ entry, after.dump = entry :: before.dump ∧ entry.code = rest) := by
    intro before after op origin rest operands hstep hcode hcount
    obtain ⟨op', origin', operands', rest', hcode', hcount', -, hleaves, hsaves⟩ := hfetches before after hstep
    obtain ⟨rfl, -, rfl⟩ := Code.instruction_unique hcount hcount' (hcode.symm.trans hcode')
    exact ⟨hleaves, hsaves⟩
  obtain ⟨c, hc, hfour⟩ := Except.exists_of_any hdepth
  refine ⟨⟨c, hc, of_decide_eq_true hfour, hsplits {} [] _ c hc⟩, ?_, ?_, ?_⟩
  · have hload : ∃ before after, m.after 1 = some before ∧ before.step = .ok (some after) ∧
        before.code = [.op .ldf none, body, .op .ap none, .op .consp none] := ⟨_, _, rfl, rfl, rfl⟩
    obtain ⟨before, after, hbefore, hstep, hcode⟩ := hload
    exact ⟨before, after, hbefore, hstep, (hrest [body] hstep hcode rfl).1 (by decide)⟩
  · have hcall : ∃ before after, m.after 2 = some before ∧ before.step = .ok (some after) ∧
        before.code = [.op .ap none, .op .consp none] := ⟨_, _, rfl, rfl, rfl⟩
    obtain ⟨before, after, hbefore, hstep, hcode⟩ := hcall
    exact ⟨before, after, hbefore, hstep, (hrest [] hstep hcode rfl).2 (by decide)⟩
  · have hbranch : ∃ before after, m.after 4 = some before ∧ before.step = .ok (some after) ∧
        before.code = [.op .sel none, branch, branch, .op .rtn none] := ⟨_, _, rfl, rfl, rfl⟩
    obtain ⟨before, after, hbefore, hstep, hcode⟩ := hbranch
    exact ⟨before, after, hbefore, hstep, (hrest [branch, branch] hstep hcode rfl).2 (by decide)⟩

end LispMachine
