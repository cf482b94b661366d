import LispMachine.Form

/-!
# Bytecode

What each form compiles to. Compilation is compositional: the code of a form is made of the codes of
its parts, and executing it puts the form's value on the stack. A span behind an instruction points
back at the form that emitted it.

* `(op a b)` is `b a OP`, so that the left operand ends on top;
* `(if c t e)` is `c SEL (t JOIN) (e JOIN)`;
* `(f a b)` is `NIL b CONS a CONS f AP`: the arguments as a list, from the last to the first, and then
  the function;
* `(lambda (p ...) body ...)` is `LDF (body POP ... body RTN)`;
* `(let ((x e) ...) body ...)` calls such a function with the initialisers;
* `(letrec ((x e) ...) body ...)` is `DUM`, the initialisers as a list, `LDF (... RTN)` and `RAP`;
* a definition puts its value at the end of the global frame with `DEFUN`.
-/

namespace LispMachine

/-- An instruction emitted for a span. -/
abbrev instr (op : Opcode) (span : Span) : Value := .op op (some span)

namespace Code

/-- Code that loads a constant. -/
def constant (span : Span) (v : Value) : Code := [instr .ldc span, v]

/-- Code that builds a list from the codes of its items: the last item first, so that the first one
ends at the head. -/
def list (span : Span) (items : List Code) : Code :=
  instr .nil span :: items.reverse.flatMap (· ++ [instr .cons span])

theorem list_cons (span : Span) (item : Code) (items : List Code) :
    list span (item :: items) = list span items ++ (item ++ [instr .cons span]) := by
  simp [list, List.flatMap_append]

/-- Codes one after the other, each value but the last dropped. -/
def sequence (span : Span) : List Code → Code
  | [] => []
  | [code] => code
  | code :: codes => code ++ instr .pop span :: sequence span codes

section
variable {P : Code → Prop} {span : Span}

/-- What holds of the code of each item holds of the code that builds their list, if it can be put together from
codes one after the other. -/
theorem list_induction (happend : ∀ {code more : Code}, P code → P more → P (code ++ more))
    (hnil : P [instr .nil span]) (hcons : P [instr .cons span]) {items : List Code}
    (h : ∀ code ∈ items, P code) : P (list span items) := by
  induction items with
  | nil => exact hnil
  | cons item items ih =>
    obtain ⟨hitem, hitems⟩ := List.forall_mem_cons.mp h
    rw [list_cons]
    exact happend (ih hitems) (happend hitem hcons)

/-- What holds of each code holds of all of them in a sequence, if it can be put together. -/
theorem sequence_induction (happend : ∀ {code more : Code}, P code → P more → P (code ++ more))
    (hempty : P []) (hpop : P [instr .pop span]) :
    ∀ {codes : List Code}, (∀ code ∈ codes, P code) → P (sequence span codes)
  | [], _ => hempty
  | [_], h => h _ List.mem_cons_self
  | _ :: _ :: _, h => by
    obtain ⟨hfirst, hrest⟩ := List.forall_mem_cons.mp h
    exact happend hfirst (happend hpop (sequence_induction happend hempty hpop hrest))

end

/-- The block of a function: its body, and the return. -/
def function (parens : Parens) (body : List Code) : Value :=
  .list (sequence parens.opening body ++ [instr .rtn parens.span])

/-- The block of a branch: its code, and the way back. -/
def branch (span : Span) (code : Code) : Value := .list (code ++ [instr .join span])

end Code

mutual
/-- The code of an expression. -/
def Expr.code : Expr → Code
  | .literal span l => Code.constant span l.value
  | .null span => [instr .nil span]
  | .var span _ address =>
    [instr .ld span, .number (.ofIndex address.depth), .number (.ofIndex address.offset)]
  | .quote span datum => Code.constant span datum.value
  | .quoteForm parens datum => Code.constant parens.span datum.value
  | .quasi span template => template.code span
  | .unary parens op operand => operand.code ++ [instr op.opcode parens.span]
  | .binary parens op left right => right.code ++ left.code ++ [instr op.opcode parens.span]
  | .ifElse parens condition consequent alternative =>
    condition.code ++ [instr .sel parens.span, Code.branch parens.span consequent.code,
      Code.branch parens.span alternative.code]
  | .lambda parens _ body => [instr .ldf parens.span, Code.function parens (codes body)]
  | .letIn parens bindings body =>
    Code.list parens.span (initCodes bindings) ++
      [instr .ldf parens.span, Code.function parens (codes body), instr .ap parens.span]
  | .letrec parens bindings body =>
    instr .dum parens.span :: Code.list parens.span (initCodes bindings) ++
      [instr .ldf parens.span, Code.function parens (codes body), instr .rap parens.span]
  | .sequence parens forms => Code.sequence parens.span (codes forms)
  | .app parens function args =>
    Code.list parens.span (codes args) ++ function.code ++ [instr .ap parens.span]
/-- The codes of expressions. -/
def codes : List Expr → List Code
  | [] => []
  | e :: es => e.code :: codes es
/-- The codes of initialisers. -/
def initCodes : List (String × Expr) → List Code
  | [] => []
  | (_, e) :: rest => e.code :: initCodes rest
/-- The code of a template. A part without holes is a constant, loaded for the span of what stands
around it, and a list with holes is built from its items. -/
def Template.code (span : Span) : Template → Code
  | .hole e => e.code
  | .datum d => Code.constant span d.value
  | .list parens items =>
    match Template.values? items with
    | some vs => Code.constant span (.list vs)
    | none => Code.list parens.span (templateCodes parens.span items)
/-- The codes of the items of a template. -/
def templateCodes (span : Span) : List Template → List Code
  | [] => []
  | t :: ts => t.code span :: templateCodes span ts
end

@[simp] theorem codes_eq_map (es : List Expr) : codes es = es.map Expr.code := by
  induction es with
  | nil => rfl
  | cons e es ih => simp [codes, ih]

@[simp] theorem initCodes_eq_map (bindings : List (String × Expr)) :
    initCodes bindings = bindings.map (·.2.code) := by
  induction bindings with
  | nil => rfl
  | cons b bs ih => simp [initCodes, ih]

@[simp] theorem templateCodes_eq_map (span : Span) (ts : List Template) :
    templateCodes span ts = ts.map (·.code span) := by
  induction ts with
  | nil => rfl
  | cons t ts ih => simp [templateCodes, ih]

namespace TopForm

/-- The code of a top-level form. -/
def code : TopForm → Code
  | .value _ e => e.code
  | .defineVariable parens _ e => e.code ++ [instr .defun parens.span]
  | .defineFunction parens _ _ body =>
    [instr .ldf parens.span, Code.function parens (codes body), instr .defun parens.span]

/-- The code that drops the value of a form which is not the last. A definition leaves none. -/
def drop : TopForm → Code
  | .value span _ => [instr .pop span]
  | _ => []

end TopForm

/-- The code of a program, which leaves at most one value. -/
def Program.code : Program → Code
  | [] => []
  | [form] => form.code
  | form :: next :: rest => form.code ++ form.drop ++ Program.code (next :: rest)

/-- What holds of the code of each form, and of the code that drops its value, holds of the code of a program, if
it can be put together from codes one after the other. -/
theorem Program.code_induction {P : Code → Prop}
    (happend : ∀ {code more : Code}, P code → P more → P (code ++ more)) (hempty : P []) :
    ∀ {p : Program}, (∀ form ∈ p, P form.code ∧ P form.drop) → P p.code
  | [], _ => hempty
  | [_], h => (h _ List.mem_cons_self).1
  | _ :: _ :: _, h => by
    obtain ⟨⟨hform, hdrop⟩, hrest⟩ := List.forall_mem_cons.mp h
    exact happend (happend hform hdrop) (code_induction happend hempty hrest)

end LispMachine
