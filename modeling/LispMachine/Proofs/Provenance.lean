import LispMachine.Proofs.Blocks
import LispMachine.Proofs.Placement
import LispMachine.Proofs.Tokenization

/-!
# Instructions and the pieces of the source that they come from

Every instruction of compiled code points at a piece of the source that starts and ends with a token, and
what stands in a block points into the piece of the form that the block was made for. The code of a form is
placed in the tokens of the form (`Expr.code_placedIn`), whatever the spans are there for: a machine that
shows its steps next to the source can always cut the piece out, and the pieces are nested as the blocks are
(`origins_are_nested_pieces`).

`Code.PlacedIn` speaks of tokens only. It is proved along the rules that make code from a form, with the
stretch of tokens getting smaller on the way in and `Code.PlacedIn.mono` on the way out. That tokens are in
order, and that each is spelled somewhere in the source, is needed only at the end, where stretches of tokens
become pieces of the text.
-/

namespace LispMachine

open Text (byteWidth)

/-! ## Placed code

An invariant on code that names the tokens which it may stand for. It is weaker for more tokens, so that the
code of a part is placed in the whole.
-/

/-- No instruction stands in the value. -/
def Value.IsData (v : Value) : Prop := ∀ op origin, ¬ (Value.op op origin).StandsIn v

/-- Each instruction of the code comes from a stretch of the tokens, and takes data or blocks. The blocks
are placed in the stretch of the instruction. -/
inductive Code.PlacedIn : List Token → Code → Prop
  | nil {ts : List Token} : PlacedIn ts []
  | plain {ts : List Token} {op : Opcode} {span : Span} {operands rest : List Value}
    (hspan : span.LiesIn ts) (hcount : operands.length = op.operandCount)
    (hdata : ∀ v ∈ operands, v.IsData)
    (hrest : PlacedIn ts rest) : PlacedIn ts (instr op span :: (operands ++ rest))
  | blocks {ts run : List Token} {op : Opcode} {span : Span} {blocks : List Code} {rest : List Value}
    (hrun : run <:+: ts) (hspan : span.Covers run) (hcount : blocks.length = op.operandCount)
    (hblocks : ∀ block ∈ blocks, PlacedIn run block)
    (hrest : PlacedIn ts rest) : PlacedIn ts (instr op span :: (blocks.map .list ++ rest))

section
variable {v : Value} {items : List Value}

theorem Value.isData_number (n : Number) : (number n).IsData := nofun

theorem Value.isData_string (text : String) : (string text).IsData := nofun

theorem Value.isData_symbol (name : String) : (symbol name).IsData := nofun

theorem Value.isData_list (h : ∀ w ∈ items, w.IsData) : (list items).IsData := by
  intro op origin hin
  obtain hop | ⟨w, hmem, hin⟩ := standsIn_list.mp hin
  · cases hop
  · exact h w hmem op origin hin

theorem Value.StandsIn.isData {w : Value} (h : v.StandsIn w) (hw : w.IsData) : v.IsData :=
  fun op origin hin => hw op origin (hin.trans h)

theorem Literal.value_isData (l : Literal) : l.value.IsData := by
  cases l with
  | number n => exact Value.isData_number n
  | boolean b => exact Value.isData_number _
  | string text => exact Value.isData_string text

mutual
theorem Datum.value_isData : ∀ d : Datum, d.value.IsData
  | .literal l => l.value_isData
  | .word w => Value.isData_symbol w.name
  | .list items => Value.isData_list (values_areData items)
  | .marked mark d => Value.isData_list (List.forall_mem_cons.mpr
      ⟨Value.isData_symbol mark.name, List.forall_mem_singleton.mpr d.value_isData⟩)
theorem values_areData : ∀ (ds : List Datum), ∀ v ∈ Datum.values ds, v.IsData
  | [] => List.forall_mem_nil _
  | d :: ds => List.forall_mem_cons.mpr ⟨d.value_isData, values_areData ds⟩
end

mutual
theorem Template.value?_isData : ∀ (t : Template) {v : Value}, t.value? = some v → v.IsData
  | .datum d, _, hvalue => by
    cases hvalue
    exact d.value_isData
  | .list _ items, _, hvalue => by
    obtain ⟨vs, hvs, rfl⟩ := Option.map_eq_some_iff.mp hvalue
    exact Value.isData_list (values?_areData items hvs)
theorem values?_areData : ∀ (ts : List Template) {vs : List Value}, Template.values? ts = some vs →
    ∀ v ∈ vs, v.IsData
  | [], _, hvalues => by
    cases hvalues
    exact List.forall_mem_nil _
  | t :: ts, _, hvalues => by
    rw [Template.values?] at hvalues
    split at hvalues
    next v vs hv hvs =>
      cases hvalues
      exact List.forall_mem_cons.mpr ⟨t.value?_isData hv, values?_areData ts hvs⟩
    next => cases hvalues
end

end

/-! ## The code of forms -/

namespace Code.PlacedIn
variable {ts ts' run : List Token} {span : Span} {parens : Parens} {op : Opcode} {code more : Code}
  {v : Value}

theorem mono (h : PlacedIn ts code) (hts : ts <:+: ts') : PlacedIn ts' code := by
  induction h with
  | nil => exact .nil
  | plain hspan hcount hdata _ ih => exact .plain (hspan.mono hts) hcount hdata (ih hts)
  | blocks hrun hspan hcount hblocks _ _ ih => exact .blocks (hrun.trans hts) hspan hcount hblocks (ih hts)

theorem append (h : PlacedIn ts code) (hmore : PlacedIn ts more) : PlacedIn ts (code ++ more) := by
  induction h with
  | nil => exact hmore
  | plain hspan hcount hdata _ ih =>
    rw [List.cons_append, List.append_assoc]
    exact .plain hspan hcount hdata (ih hmore)
  | blocks hrun hspan hcount hblocks _ _ ih =>
    rw [List.cons_append, List.append_assoc]
    exact .blocks hrun hspan hcount hblocks (ih hmore)

/-- An instruction without operands, and more code. -/
theorem cons (hspan : span.LiesIn ts) (hcount : op.operandCount = 0) (hcode : PlacedIn ts code) :
    PlacedIn ts (instr op span :: code) := by
  have hplaced : PlacedIn ts (instr op span :: ([] ++ code)) :=
    .plain hspan hcount.symm (List.forall_mem_nil _) hcode
  exact hplaced

theorem constant (hspan : span.LiesIn ts) (hv : v.IsData) : PlacedIn ts (Code.constant span v) := by
  have hplaced : PlacedIn ts (instr .ldc span :: ([v] ++ [])) :=
    .plain hspan rfl (List.forall_mem_singleton.mpr hv) .nil
  exact hplaced

theorem sequence (hspan : span.LiesIn ts) {codes : List Code} (h : ∀ code ∈ codes, PlacedIn ts code) :
    PlacedIn ts (Code.sequence span codes) :=
  Code.sequence_induction append .nil (.cons hspan rfl .nil) h

theorem list (hspan : span.LiesIn ts) {items : List Code} (h : ∀ code ∈ items, PlacedIn ts code) :
    PlacedIn ts (Code.list span items) :=
  Code.list_induction append (.cons hspan rfl .nil) (.cons hspan rfl .nil) h

/-- A function that is loaded for its whole form, and more code. -/
theorem function (hparens : parens.Enclose run) {body : List Code}
    (hbody : ∀ code ∈ body, PlacedIn run code) (hcode : PlacedIn run code) :
    PlacedIn run (instr .ldf parens.span :: Code.function parens body :: code) := by
  have hblock : PlacedIn run (Code.sequence parens.opening body ++ [instr .rtn parens.span]) :=
    (sequence hparens.opening_liesIn hbody).append (.cons hparens.covers.liesIn rfl .nil)
  have hplaced : PlacedIn run (instr .ldf parens.span ::
      (List.map .list [Code.sequence parens.opening body ++ [instr .rtn parens.span]] ++ code)) :=
    .blocks List.infix_rfl hparens.covers rfl (List.forall_mem_singleton.mpr hblock) hcode
  exact hplaced

/-- Two branches for one form. -/
theorem branches (hparens : parens.Enclose run) (hcode : PlacedIn run code) (hmore : PlacedIn run more) :
    PlacedIn run [instr .sel parens.span, Code.branch parens.span code, Code.branch parens.span more] := by
  have hjoin : ∀ {code : Code}, PlacedIn run code → PlacedIn run (code ++ [instr .join parens.span]) :=
    fun hcode => hcode.append (.cons hparens.covers.liesIn rfl .nil)
  have hplaced : PlacedIn run (instr .sel parens.span ::
      (List.map .list [code ++ [instr .join parens.span], more ++ [instr .join parens.span]] ++ [])) :=
    .blocks List.infix_rfl hparens.covers rfl
      (List.forall_mem_cons.mpr ⟨hjoin hcode, List.forall_mem_singleton.mpr (hjoin hmore)⟩) .nil
  exact hplaced

end Code.PlacedIn

theorem UnaryOp.operandCount_opcode (op : UnaryOp) : op.opcode.operandCount = 0 := by
  cases op <;> rfl

theorem BinaryOp.operandCount_opcode (op : BinaryOp) : op.opcode.operandCount = 0 := by
  cases op with
  | operator o => cases o <;> rfl
  | cons | and | or => rfl

mutual
/-- The code of a form is placed in the tokens of the form. -/
theorem Expr.code_placedIn : ∀ (e : Expr) {ts : List Token}, e.LiesIn ts → Code.PlacedIn ts e.code
  | .literal _ l, _, h => .constant h l.value_isData
  | .null _, _, h => .cons h rfl .nil
  | .var _ _ address, _, h => by
    -- the two operands of a load are numbers
    have hdata : ∀ v ∈ [Value.number (.ofIndex address.depth), .number (.ofIndex address.offset)],
        v.IsData :=
      List.forall_mem_cons.mpr
        ⟨Value.isData_number _, List.forall_mem_singleton.mpr (Value.isData_number _)⟩
    exact .plain h rfl hdata .nil
  | .quote _ d, _, h => .constant h d.value_isData
  | .quoteForm _ d, _, ⟨_, hrun, hparens, _⟩ => .constant (hparens.covers.liesIn.mono hrun) d.value_isData
  | .quasi _ t, _, ⟨hspan, ht⟩ => t.code_placedIn hspan ht
  | .unary _ op e, _, ⟨_, hrun, hparens, he⟩ =>
    ((e.code_placedIn he).append (.cons hparens.covers.liesIn op.operandCount_opcode .nil)).mono hrun
  | .binary _ op l r, _, ⟨_, hrun, hparens, hl, hr⟩ =>
    (((r.code_placedIn hr).append (l.code_placedIn hl)).append
      (.cons hparens.covers.liesIn op.operandCount_opcode .nil)).mono hrun
  | .ifElse _ c t e, _, ⟨_, hrun, hparens, hc, ht, he⟩ =>
    ((c.code_placedIn hc).append (.branches hparens (t.code_placedIn ht) (e.code_placedIn he))).mono hrun
  | .lambda _ _ body, _, ⟨_, hrun, hparens, hbody⟩ =>
    (Code.PlacedIn.function hparens (codes_placedIn body hbody) .nil).mono hrun
  | .letIn _ bindings body, _, ⟨_, hrun, hparens, hinits, hbody⟩ =>
    ((Code.PlacedIn.list hparens.covers.liesIn (initCodes_placedIn bindings hinits)).append
      (.function hparens (codes_placedIn body hbody) (.cons hparens.covers.liesIn rfl .nil))).mono hrun
  | .letrec _ bindings body, _, ⟨_, hrun, hparens, hinits, hbody⟩ =>
    (Code.PlacedIn.cons hparens.covers.liesIn rfl
      ((Code.PlacedIn.list hparens.covers.liesIn (initCodes_placedIn bindings hinits)).append
        (.function hparens (codes_placedIn body hbody) (.cons hparens.covers.liesIn rfl .nil)))).mono hrun
  | .sequence _ forms, _, ⟨_, hrun, hparens, hforms⟩ =>
    (Code.PlacedIn.sequence hparens.covers.liesIn (codes_placedIn forms hforms)).mono hrun
  | .app _ function args, _, ⟨_, hrun, hparens, hfunction, hargs⟩ =>
    (((Code.PlacedIn.list hparens.covers.liesIn (codes_placedIn args hargs)).append
      (function.code_placedIn hfunction)).append (.cons hparens.covers.liesIn rfl .nil)).mono hrun
theorem codes_placedIn : ∀ (es : List Expr) {ts : List Token}, AllLieIn es ts →
    ∀ code ∈ codes es, Code.PlacedIn ts code
  | [], _, _ => List.forall_mem_nil _
  | e :: es, _, h => List.forall_mem_cons.mpr ⟨e.code_placedIn h.1, codes_placedIn es h.2⟩
theorem initCodes_placedIn : ∀ (bindings : List (String × Expr)) {ts : List Token}, InitsLieIn bindings ts →
    ∀ code ∈ initCodes bindings, Code.PlacedIn ts code
  | [], _, _ => List.forall_mem_nil _
  | (_, e) :: rest, _, h => List.forall_mem_cons.mpr ⟨e.code_placedIn h.1, initCodes_placedIn rest h.2⟩
/-- The code of a template is placed where the template stands, for a span that stands there. -/
theorem Template.code_placedIn : ∀ (t : Template) {ts : List Token} {span : Span}, span.LiesIn ts →
    t.LiesIn ts → Code.PlacedIn ts (t.code span)
  | .hole e, _, _, _, h => e.code_placedIn h
  | .datum d, _, _, hspan, _ => .constant hspan d.value_isData
  | .list parens items, _, _, hspan, ⟨_, hrun, hparens, hitems⟩ => by
    rw [Template.code]
    -- without a hole the template is one constant, for the span of the whole quotation
    split
    next vs hvs => exact .constant hspan (Value.isData_list (values?_areData items hvs))
    next =>
      exact (Code.PlacedIn.list hparens.covers.liesIn
        (templateCodes_placedIn items hparens.covers.liesIn hitems)).mono hrun
theorem templateCodes_placedIn : ∀ (items : List Template) {ts : List Token} {span : Span}, span.LiesIn ts →
    TemplatesLieIn items ts → ∀ code ∈ templateCodes span items, Code.PlacedIn ts code
  | [], _, _, _, _ => List.forall_mem_nil _
  | t :: rest, _, _, hspan, h =>
    List.forall_mem_cons.mpr ⟨t.code_placedIn hspan h.1, templateCodes_placedIn rest hspan h.2⟩
end

theorem TopForm.code_placedIn {form : TopForm} {ts : List Token} (h : form.LiesIn ts) :
    Code.PlacedIn ts form.code := by
  cases form with
  | value span e => exact e.code_placedIn h.2
  | defineVariable parens name e =>
    obtain ⟨run, hrun, hparens, he⟩ := h
    exact ((e.code_placedIn he).append (.cons hparens.covers.liesIn rfl .nil)).mono hrun
  | defineFunction parens name params body =>
    obtain ⟨run, hrun, hparens, hbody⟩ := h
    have hdefun : Code.PlacedIn run [instr .defun parens.span] := .cons hparens.covers.liesIn rfl .nil
    exact (Code.PlacedIn.function hparens (codes_placedIn body hbody) hdefun).mono hrun

theorem TopForm.drop_placedIn {form : TopForm} {ts : List Token} (h : form.LiesIn ts) :
    Code.PlacedIn ts form.drop := by
  cases form with
  | value span e => exact .cons h.1 rfl .nil
  | defineVariable | defineFunction => exact .nil

theorem Program.code_placedIn (p : Program) {ts : List Token} (h : ∀ form ∈ p, form.LiesIn ts) :
    Code.PlacedIn ts p.code :=
  Program.code_induction .append .nil
    fun form hmem => ⟨TopForm.code_placedIn (h form hmem), TopForm.drop_placedIn (h form hmem)⟩

/-! ## Instructions of placed code -/

/-- What stands in code that starts with an instruction is the code, the instruction, or stands in an
operand or in the code behind. -/
theorem Value.StandsIn.of_code {v : Value} {op : Opcode} {origin : Option Span} {operands rest : Code}
    (h : v.StandsIn (.list (.op op origin :: (operands ++ rest)))) :
    v = .list (.op op origin :: (operands ++ rest)) ∨ v = .op op origin ∨
      (∃ w ∈ operands, v.StandsIn w) ∨ v.StandsIn (.list rest) := by
  obtain hlist | ⟨w, hmem, hin⟩ := standsIn_list.mp h
  · exact .inl hlist
  obtain rfl | hmem := List.mem_cons.mp hmem
  · cases hin
    exact .inr (.inl rfl)
  obtain hmem | hmem := List.mem_append.mp hmem
  · exact .inr (.inr (.inl ⟨w, hmem, hin⟩))
  · exact .inr (.inr (.inr (.item hmem hin)))

namespace Code.PlacedIn
variable {ts : List Token} {code block operands : Code} {op : Opcode} {origin : Option Span}

/-- Every instruction that stands in placed code, at any depth, comes from a stretch of the tokens. -/
theorem exists_origin (h : PlacedIn ts code) (hin : (Value.op op origin).StandsIn (.list code)) :
    ∃ s, origin = some s ∧ s.LiesIn ts := by
  induction h with
  | nil =>
    obtain hop | ⟨w, hmem, -⟩ := Value.standsIn_list.mp hin
    · cases hop
    · cases hmem
  | plain hspan _ hdata _ ih =>
    obtain hop | hop | ⟨w, hmem, hin⟩ | hin := hin.of_code
    · cases hop
    · cases hop
      exact ⟨_, rfl, hspan⟩
    -- no instruction stands in what is data
    · exact absurd hin (hdata w hmem op origin)
    · exact ih hin
  | blocks hrun hspan _ _ _ ihblocks ih =>
    obtain hop | hop | ⟨w, hmem, hin⟩ | hin := hin.of_code
    · cases hop
    · cases hop
      exact ⟨_, rfl, hspan.liesIn.mono hrun⟩
    · obtain ⟨block, hblock, rfl⟩ := List.mem_map.mp hmem
      obtain ⟨s, rfl, hs⟩ := ihblocks block hblock hin
      exact ⟨s, rfl, hs.mono hrun⟩
    · exact ih hin

/-- A list in placed code is data, or it is placed code itself. -/
theorem of_standsIn (h : PlacedIn ts code) (hin : (Value.list block).StandsIn (.list code)) :
    (Value.list block).IsData ∨ ∃ run, run <:+: ts ∧ PlacedIn run block := by
  induction h with
  | nil =>
    obtain hlist | ⟨w, hmem, -⟩ := Value.standsIn_list.mp hin
    · cases hlist
      exact .inr ⟨_, List.infix_rfl, .nil⟩
    · cases hmem
  | plain hspan hcount hdata hrest ih =>
    obtain hlist | hop | ⟨w, hmem, hin⟩ | hin := hin.of_code
    · cases hlist
      exact .inr ⟨_, List.infix_rfl, .plain hspan hcount hdata hrest⟩
    · cases hop
    · exact .inl (hin.isData (hdata w hmem))
    · exact ih hin
  | blocks hrun hspan hcount hblocks hrest ihblocks ih =>
    obtain hlist | hop | ⟨w, hmem, hin⟩ | hin := hin.of_code
    · cases hlist
      exact .inr ⟨_, List.infix_rfl, .blocks hrun hspan hcount hblocks hrest⟩
    · cases hop
    · obtain ⟨block', hblock, rfl⟩ := List.mem_map.mp hmem
      obtain hdata | ⟨run, hrun', hplaced⟩ := ihblocks block' hblock hin
      · exact .inl hdata
      · exact .inr ⟨run, hrun'.trans hrun, hplaced⟩
    · exact ih hin

/-- An instruction of placed code comes from a stretch of tokens that all instructions in its operands come
from as well. -/
theorem of_hasInstruction (h : PlacedIn ts code) (hhas : Code.HasInstruction code op origin operands) :
    ∃ s run, origin = some s ∧ run <:+: ts ∧ s.Covers run ∧ ∀ operand ∈ operands, ∀ op' origin',
      (Value.op op' origin').StandsIn operand → ∃ s', origin' = some s' ∧ s'.LiesIn run := by
  induction h with
  | nil => exact absurd hhas Code.not_hasInstruction_nil
  | @plain ts first span taken rest hspan hcount hdata _ ih =>
    -- the operands hold no instruction at their top, so the next one starts behind all of them
    have hatoms : ∀ op origin, Value.op op origin ∉ taken :=
      fun op origin hmem => hdata _ hmem op origin .here
    obtain ⟨rfl, rfl, rfl⟩ | hrest := hhas.of_cons hcount hatoms
    · obtain ⟨run, hrun, hcovers⟩ := hspan
      refine ⟨span, run, rfl, hrun, hcovers, fun operand hmem op' origin' hin => ?_⟩
      exact absurd hin (hdata operand hmem op' origin')
    · exact ih hrest
  | @blocks ts run first span blocks rest hrun hspan hcount hblocks _ _ ih =>
    have hatoms : ∀ op origin, Value.op op origin ∉ blocks.map Value.list := by
      intro op origin hmem
      obtain ⟨block, -, hop⟩ := List.mem_map.mp hmem
      cases hop
    obtain ⟨rfl, rfl, rfl⟩ | hrest := hhas.of_cons ((List.length_map _).trans hcount) hatoms
    -- the blocks are placed in the stretch of this instruction, whatever stands in them
    · refine ⟨span, run, rfl, hrun, hspan, fun operand hmem op' origin' hin => ?_⟩
      obtain ⟨block, hblock, rfl⟩ := List.mem_map.mp hmem
      exact (hblocks block hblock).exists_origin hin
    · exact ih hrest

end Code.PlacedIn

/-! ## Pieces of the source

From tokens to offsets: the ends of a stretch of tokens are the ends of tokens, and so are between characters
of the source.
-/

theorem Text.slice?_append (before piece after : List Char) :
    slice? (byteWidth before) (byteWidth before + byteWidth piece) (before ++ (piece ++ after)) =
      some piece := by
  have hwidth : byteWidth before + byteWidth piece - byteWidth before = byteWidth piece :=
    Nat.add_sub_cancel_left ..
  rw [slice?, if_pos (Nat.le_add_right ..), splitAt?_byteWidth, Option.bind_some, hwidth]
  dsimp only
  rw [splitAt?_byteWidth]
  rfl

section
variable {d : Dialect} {text piece piece' after after' : List Char} {s inner : Span} {t u : Token}
  {tokens run : List Token} {start : Nat}

theorem Span.Cuts.slice?_eq (h : s.Cuts text piece after) :
    Text.slice? s.start s.stop text = some piece := by
  obtain ⟨before, rfl, hstart, hstop⟩ := h
  rw [← hstop, ← hstart]
  exact Text.slice?_append before piece after

/-- From where one span starts to where another ends, a text can be cut. -/
theorem Span.Cuts.between {s' : Span} (h : s.Cuts text piece after) (h' : s'.Cuts text piece' after')
    (hle : s.start ≤ s'.stop) : ∃ piece, (Span.mk s.start s'.stop).Cuts text piece after' := by
  obtain ⟨before, htext, hstart, -⟩ := h
  obtain ⟨before', htext', hstart', hstop'⟩ := h'
  have hends : byteWidth (before' ++ piece') = s'.stop := by rw [Text.byteWidth_append, hstart', hstop']
  have hsame : before ++ (piece ++ after) = (before' ++ piece') ++ after' := by
    rw [htext, List.append_assoc, htext']
  -- the second piece ends behind the start of the first, or just there
  obtain ⟨between, hbetween, -⟩ | ⟨more, hmore, -⟩ := List.append_eq_append_iff.mp hsame
  · refine ⟨between, before, ?_, hstart, ?_⟩
    · rw [← htext, hsame, hbetween, List.append_assoc]
    · rw [← hends, hbetween, Text.byteWidth_append, hstart]
  · have hwidth := congrArg byteWidth hmore
    rw [Text.byteWidth_append, hends, hstart] at hwidth
    have hnil : more = [] := Text.eq_nil_of_byteWidth (by omega)
    refine ⟨[], before, ?_, hstart, ?_⟩
    · rw [hmore, hnil, List.append_nil, List.nil_append, List.append_assoc, htext']
    · show s.start + 0 = s'.stop
      rw [hnil] at hwidth
      exact hwidth

/-- A span over tokens starts where one of them starts, and ends where one of them ends. -/
theorem Span.Covers.ends (h : s.Covers run) :
    (∃ t ∈ run, s.start = t.span.start) ∧ ∃ t ∈ run, s.stop = t.span.stop := by
  obtain ⟨first, more, rfl, rfl⟩ := h
  refine ⟨⟨first, List.mem_cons_self, rfl⟩, ?_⟩
  induction more generalizing first with
  | nil => exact ⟨first, List.mem_cons_self, rfl⟩
  | cons second more ih =>
    obtain ⟨t, ht, hstop⟩ := ih second
    exact ⟨t, List.mem_cons_of_mem _ ht, hstop⟩

/-- A span over tokens in order contains each of them. -/
theorem Span.Covers.bounds (h : s.Covers run) (hne : ∀ t ∈ run, t.span.start < t.span.stop)
    (hordered : run.Pairwise fun t u => t.span.stop ≤ u.span.start) :
    ∀ t ∈ run, s.start ≤ t.span.start ∧ t.span.stop ≤ s.stop := by
  obtain ⟨first, more, rfl, rfl⟩ := h
  obtain ⟨hbefore, hordered'⟩ := List.pairwise_cons.mp hordered
  have hstart : ∀ t ∈ first :: more, first.span.start ≤ t.span.start := by
    refine List.forall_mem_cons.mpr ⟨Nat.le_refl _, fun t ht => ?_⟩
    have hfirst := hne first List.mem_cons_self
    have hafter := hbefore t ht
    omega
  have hstop : ∀ t ∈ first :: more, t.span.stop ≤ endOf first.span.stop more := by
    clear hstart
    induction more generalizing first with
    | nil => exact List.forall_mem_singleton.mpr (Nat.le_refl _)
    | cons second more ih =>
      obtain ⟨hbefore', hordered''⟩ := List.pairwise_cons.mp hordered'
      have hrest := ih second (fun t ht => hne t (List.mem_cons_of_mem _ ht)) hordered' hbefore' hordered''
      refine List.forall_mem_cons.mpr ⟨?_, hrest⟩
      calc first.span.stop ≤ second.span.start := hbefore second List.mem_cons_self
        _ ≤ second.span.stop := Nat.le_of_lt (hne second (List.mem_cons_of_mem _ List.mem_cons_self))
        _ ≤ endOf second.span.stop more := hrest second List.mem_cons_self
  exact fun t ht => ⟨hstart t ht, hstop t ht⟩

/-- One span is inside of the other. -/
def Span.Contains (s inner : Span) : Prop := s.start ≤ inner.start ∧ inner.stop ≤ s.stop

/-- A span is a real piece of a source: it starts where a token starts and ends where a token ends, and the
text between can be cut out and is not empty. -/
structure Span.IsPiece (s : Span) (source : String) (tokens : List Token) : Prop where
  start : ∃ t ∈ tokens, s.start = t.span.start
  stop : ∃ t ∈ tokens, s.stop = t.span.stop
  bounds : s.start < s.stop ∧ s.stop ≤ byteWidth source.toList
  slice : ∃ piece, Text.slice? s.start s.stop source.toList = some piece ∧ piece ≠ []

theorem Span.LiesIn.isPiece {source : String} (h : s.LiesIn tokens)
    (htokens : Tokenization d source.toList start tokens) : s.IsPiece source tokens := by
  obtain ⟨run, hrun, hcovers⟩ := h
  -- the tokens are in order and none is empty, so the span starts before it ends
  have hbounds := hcovers.bounds (fun t ht => htokens.nonempty t (hrun.subset ht))
    (htokens.ordered.sublist hrun.sublist)
  obtain ⟨⟨t, ht, hstart⟩, u, hu, hstop⟩ := hcovers.ends
  have hlt : s.start < s.stop := by
    have hne := htokens.nonempty t (hrun.subset ht)
    have hinside := (hbounds t ht).2
    omega
  obtain ⟨piece, after, hcuts, -⟩ := htokens.spelled t (hrun.subset ht)
  obtain ⟨piece', after', hcuts', -⟩ := htokens.spelled u (hrun.subset hu)
  obtain ⟨between, hbetween⟩ := hcuts.between hcuts' (by omega)
  rw [← hstart, ← hstop] at hbetween
  refine ⟨⟨t, hrun.subset ht, hstart⟩, ⟨u, hrun.subset hu, hstop⟩, ⟨hlt, hbetween.stop_le⟩, between,
    hbetween.slice?_eq, ?_⟩
  rintro rfl
  obtain ⟨-, -, -, hwidth⟩ := hbetween
  have hwidth : s.start + 0 = s.stop := hwidth
  omega

/-- A span over tokens in order contains the spans over some of them. -/
theorem Span.Covers.contains (h : s.Covers run) (hinner : inner.LiesIn run) (hrun : run <:+: tokens)
    (htokens : Tokenization d text start tokens) : s.Contains inner := by
  have hbounds := h.bounds (fun t ht => htokens.nonempty t (hrun.subset ht))
    (htokens.ordered.sublist hrun.sublist)
  obtain ⟨run', hrun', hcovers⟩ := hinner
  obtain ⟨⟨t, ht, hstart⟩, u, hu, hstop⟩ := hcovers.ends
  unfold Span.Contains
  rw [hstart, hstop]
  exact ⟨(hbounds t (hrun'.subset ht)).1, (hbounds u (hrun'.subset hu)).2⟩

end

/-- **Origins are nested pieces of the source.** Each instruction in compiled code, in whatever block, comes
from a piece of the source that is bounded by tokens. And what stands in the operands of an instruction, the
blocks of functions and branches, comes from inside of the piece that the instruction comes from. -/
theorem origins_are_nested_pieces (d : Dialect) (globals : List String) (source : String) (c : Compiled)
    (hcompile : compile d globals source = .ok c) :
    ∃ tokens stop, tokenize d source = .ok (tokens ++ [.ending stop]) ∧
      (∀ op origin, (Value.op op origin).StandsIn (.list c.code) →
        ∃ s, origin = some s ∧ s.IsPiece source tokens) ∧
      ∀ block op origin operands, (Value.list block).StandsIn (.list c.code) →
        Code.HasInstruction block op origin operands →
        ∃ s, origin = some s ∧ ∀ operand ∈ operands, ∀ op' origin',
          (Value.op op' origin').StandsIn operand → ∃ s', origin' = some s' ∧ s.Contains s' := by
  obtain ⟨p, hp, rfl⟩ := compile_eq_ok_iff.mp hcompile
  have hends : ∃ stop, (TokenRun.ofText d source).ending = .eof stop :=
    (Program.kinds_of_ofRun (TokenRun.kind_ne_eof d _) hp).2
  obtain ⟨stop, hends⟩ := hends
  obtain ⟨htokens, -⟩ := tokenization_of_ofCursor [] rfl rfl hends
  have hplaced : Code.PlacedIn (TokenRun.ofText d source).tokens p.code :=
    p.code_placedIn (Program.liesIn_of_ofRun hp)
  refine ⟨(TokenRun.ofText d source).tokens, stop, ?_, fun op origin hin => ?_, ?_⟩
  · rw [tokenize, TokenRun.result, hends]
  · obtain ⟨s, hs, hlies⟩ := hplaced.exists_origin hin
    exact ⟨s, hs, hlies.isPiece htokens⟩
  · intro block op origin operands hblock hhas
    obtain hdata | ⟨run, hrun, hblock⟩ := hplaced.of_standsIn hblock
    -- a list of data holds no instruction, so it is none of the blocks
    · obtain ⟨before, after, rfl, -⟩ := hhas
      exact absurd (.item (List.mem_append_right _ List.mem_cons_self) .here) (hdata op origin)
    · obtain ⟨s, run', hs, hrun', hcovers, hinside⟩ := hblock.of_hasInstruction hhas
      refine ⟨s, hs, fun operand hmem op' origin' hin => ?_⟩
      obtain ⟨s', hs', hlies⟩ := hinside operand hmem op' origin' hin
      exact ⟨s', hs', hcovers.contains hlies (hrun'.trans hrun) htokens⟩

/-- A function that is called where it is written, with a character of two bytes among its arguments and
blanks behind what is quoted. -/
theorem origins_in_called_function :
    let source := "((lambda (x) (if x 'y  `(1 ,x ) ))  \"é\" ) "
    ∃ c tokens stop, compile {} [] source = .ok c ∧
      c.code.map Value.origin? = [some ⟨0, 42⟩, some ⟨36, 40⟩, none, some ⟨0, 42⟩, some ⟨1, 34⟩, none,
        some ⟨0, 42⟩] ∧
      tokenize {} source = .ok (tokens ++ [.ending stop]) ∧
      (∀ op origin, (Value.op op origin).StandsIn (.list c.code) →
        ∃ s, origin = some s ∧ s.IsPiece source tokens) ∧
      ∀ block op origin operands, (Value.list block).StandsIn (.list c.code) →
        Code.HasInstruction block op origin operands →
        ∃ s, origin = some s ∧ ∀ operand ∈ operands, ∀ op' origin',
          (Value.op op' origin').StandsIn operand → ∃ s', origin' = some s' ∧ s.Contains s' := by
  intro source
  have hcode : (compile {} [] source).toOption.any fun c => c.code.map Value.origin? =
      [some ⟨0, 42⟩, some ⟨36, 40⟩, none, some ⟨0, 42⟩, some ⟨1, 34⟩, none, some ⟨0, 42⟩] := by
    decide +kernel
  obtain ⟨c, hc, horigins⟩ := Except.exists_of_any hcode
  obtain ⟨tokens, stop, hpieces⟩ := origins_are_nested_pieces {} [] source c hc
  exact ⟨c, tokens, stop, hc, of_decide_eq_true horigins, hpieces⟩

end LispMachine
