import LispMachine.Form
import LispMachine.Form.Feed

/-!
# From tokens to forms

A recursive descent with one token of lookahead. Forms, data and templates may contain each other
only `maxNesting` deep, and that limit is what the recursion runs on: `readers n` are the readers
that may go `n` levels deep, built from those that may go one level less, and `readers 0` refuse.

A reader is told which offset to blame when it refuses: where the token starts if it has already been
looked at, and otherwise where the token before it ends.

Scopes go along: a name must be bound where it is read, and `and` and `or` are operators only where
they are not. The initialisers of a `letrec` see all of its names, so these are found by reading
ahead.
-/

namespace LispMachine

open Read

/-- The readers for one level of nesting. Each takes the offset to blame. -/
structure Readers where
  form : Nat → Scope → Read Expr
  datum : Nat → Read Datum
  template : Nat → Scope → Read Template

/-- The readers that refuse to go any deeper. -/
def Readers.refusing : Readers where
  form blame _ := fail blame .tooDeeplyNested
  datum blame := fail blame .tooDeeplyNested
  template blame _ := fail blame .tooDeeplyNested

section
variable (inner : Readers)

/-! ## Data and templates -/

/-- Reads a datum whose parts the inner readers read. -/
def readDatum : Read Datum := do
  let t ← next
  match t.kind with
  | .number n => return .literal (.number n)
  | .boolean b => return .literal (.boolean b)
  | .string text => return .literal (.string text)
  | .identifier name => return .word (.identifier name)
  | .keyword k => return .word (.keyword k)
  | .operator o => return .word (.operator o)
  | .leftParen =>
    let (items, _) ← untilClose inner.datum
    return .list items
  | .quote => return .marked .quote (← inner.datum (← position))
  | .backquote => return .marked .quasiquote (← inner.datum (← position))
  | .comma => return .marked .unquote (← inner.datum (← position))
  | .rightParen | .eof => unexpected t .datum

/-- Reads a template. What is neither a hole nor a list is a datum. -/
def readTemplate (scope : Scope) : Read Template := do
  let t ← peek
  match t.kind with
  | .comma =>
    let _ ← next
    return .hole (← inner.form (← position) scope)
  | .backquote => fail t.span.start .nestedQuasiquote
  | .leftParen =>
    let _ ← next
    let (items, closing) ← untilClose (inner.template · scope)
    return .list ⟨t.span, closing⟩ items
  | _ => return .datum (← inner.datum t.span.start)

/-! ## The parts of forms -/

/-- Reads expressions up to and including the closing parenthesis. -/
def readOperands (scope : Scope) : Read (List Expr × Span) :=
  untilClose (inner.form · scope)

/-- Reads the body of a binding form, up to and including the closing parenthesis. -/
def readBody (scope : Scope) (opening : Span) (form : Keyword) : Read (List Expr × Span) := do
  let (body, closing) ← readOperands inner scope
  if body.isEmpty then fail opening.start (.emptyBody form)
  return (body, closing)

/-- Reads parameter names up to and including the closing parenthesis. -/
def readParameters : Read (List String) :=
  collect (fun seen => do
    let t ← next
    match t.kind with
    | .rightParen => return none
    | .identifier name =>
      if name ∈ seen then fail t.span.start (.duplicateParameter name)
      return some (name, name :: seen)
    | _ => unexpected t .parameter) []

/-- Reads one binding, behind its opening parenthesis, given the names that are already bound. -/
def readBinding (scope : Scope) (form : Keyword) (seen : List String) : Read (String × Expr) := do
  let (name, span) ← identifier .variableName
  if name ∈ seen then fail span.start (.duplicateBinding name form)
  let init ← inner.form (← position) scope
  let _ ← expect .rightParen .bindingEnd
  return (name, init)

/-- Reads a list of bindings, with initialisers that see the given scope. -/
def readBindings (scope : Scope) (form : Keyword) : Read (List (String × Expr)) := do
  let _ ← expect .leftParen .bindingList
  collect (fun seen => do
    let t ← next
    match t.kind with
    | .rightParen => return none
    | .leftParen =>
      let binding ← readBinding inner scope form seen
      return some (binding, binding.1 :: seen)
    | _ => unexpected t .binding) []

/-- Finds the names of a list of bindings without taking it. A malformed list ends the search, and
the reader of the bindings reports it. -/
def bindingNames : Read (List String) :=
  lookAhead do
    if (← next).kind ≠ .leftParen then return []
    collect (fun more => do
      if !more then return none
      if (← next).kind ≠ .leftParen then return none
      match (← next).kind with
      | .identifier name =>
        skipDatum
        return some (name, decide ((← next).kind = .rightParen))
      | _ => return none) true

/-! ## Forms in parentheses -/

/-- Reads a primitive of one operand. -/
def readUnary (scope : Scope) (opening : Span) (op : UnaryOp) : Read Expr := do
  match ← readOperands inner scope with
  | ([operand], closing) => return .unary ⟨opening, closing⟩ op operand
  | (operands, _) => fail opening.start (.operandCount op.keyword.name 1 operands.length)

/-- Reads a primitive of two operands. -/
def readBinary (scope : Scope) (opening : Span) (op : BinaryOp) : Read Expr := do
  match ← readOperands inner scope with
  | ([left, right], closing) => return .binary ⟨opening, closing⟩ op left right
  | (operands, _) => fail opening.start (.operandCount op.name 2 operands.length)

/-- Reads the arguments of a function. -/
def readCall (scope : Scope) (opening : Span) (function : Expr) : Read Expr := do
  let (args, closing) ← readOperands inner scope
  return .app ⟨opening, closing⟩ function args

/-- Reads a form behind the keyword that it starts with. -/
def readSpecial (scope : Scope) (opening : Span) : Keyword → Read Expr
  | .if_ => do
    match ← readOperands inner scope with
    | ([c, t, e], closing) => return .ifElse ⟨opening, closing⟩ c t e
    | (operands, _) => fail opening.start (.operandCount Keyword.if_.name 3 operands.length)
  | .lambda => do
    let _ ← expect .leftParen .parameterList
    let params ← readParameters
    let (body, closing) ← readBody inner (scope.push params) opening .lambda
    return .lambda ⟨opening, closing⟩ params body
  | .let_ => do
    let bindings ← readBindings inner scope .let_
    let (body, closing) ← readBody inner (scope.push (bindings.map (·.1))) opening .let_
    return .letIn ⟨opening, closing⟩ bindings body
  | .letrec => do
    let scope := scope.push (← bindingNames)
    let bindings ← readBindings inner scope .letrec
    let (body, closing) ← readBody inner scope opening .letrec
    return .letrec ⟨opening, closing⟩ bindings body
  | .begin_ => do
    let (forms, closing) ← readOperands inner scope
    if forms.isEmpty then fail opening.start .emptySequence
    return .sequence ⟨opening, closing⟩ forms
  | .car => readUnary inner scope opening .car
  | .cdr => readUnary inner scope opening .cdr
  | .consp => readUnary inner scope opening .consp
  | .cons => readBinary inner scope opening .cons
  | .quote => do
    let datum ← inner.datum (← position)
    let closing ← expect .rightParen .quoteEnd
    return .quoteForm ⟨opening, closing.span⟩ datum
  | .null => readCall inner scope opening (.null opening)
  | .define => fail opening.start .nestedDefinition
  | .defineMacro => fail opening.start .unsupportedDefinition

/-- Reads a form behind its opening parenthesis. -/
def readCompound (scope : Scope) (opening : Span) : Read Expr := do
  let t ← peek
  match t.kind with
  | .keyword k =>
    let _ ← next
    readSpecial inner scope opening k
  | .operator o =>
    let _ ← next
    readBinary inner scope opening (.operator o)
  | .rightParen => fail opening.start .emptyApplication
  | .identifier name =>
    match BinaryOp.ofName? name, scope.resolve name with
    | some op, none =>
      let _ ← next
      readBinary inner scope opening op
    | _, _ => readCall inner scope opening (← inner.form t.span.start scope)
  | _ => readCall inner scope opening (← inner.form t.span.start scope)

/-- Reads an expression whose parts the inner readers read. -/
def readForm (scope : Scope) : Read Expr := do
  let t ← next
  match t.kind with
  | .number n => return .literal t.span (.number n)
  | .boolean b => return .literal t.span (.boolean b)
  | .string text => return .literal t.span (.string text)
  | .identifier name =>
    match scope.resolve name with
    | some address => return .var t.span name address
    | none => throw (.unbound name)
  | .keyword .null => return .null t.span
  | .quote =>
    let datum ← inner.datum (← position)
    return .quote ⟨t.span.start, ← position⟩ datum
  | .backquote =>
    let template ← inner.template (← position) scope
    return .quasi ⟨t.span.start, ← position⟩ template
  | .leftParen => readCompound inner scope t.span
  | .comma => fail t.span.start .strayUnquote
  | _ => unexpected t .expression

/-! ## Programs -/

/-- Reads a definition behind its keyword. The name is bound before the value is read, so that a
function can call itself. -/
def readDefinition (scope : Scope) (opening : Span) : Read TopForm := do
  let t ← next
  match t.kind with
  | .leftParen =>
    let (name, _) ← identifier .functionName
    let params ← readParameters
    let (body, closing) ← readBody inner ((scope.define name).push params) opening .define
    return .defineFunction ⟨opening, closing⟩ name params body
  | .identifier name =>
    let e ← inner.form (← position) (scope.define name)
    let closing ← expect .rightParen .defineEnd
    return .defineVariable ⟨opening, closing.span⟩ name e
  | _ => unexpected t .definedName

/-- Reads a top-level form: a definition, or an expression. -/
def readTopForm (scope : Scope) : Read TopForm := do
  match (← get).tokens with
  | ⟨.leftParen, opening⟩ :: ⟨.keyword .define, _⟩ :: _ =>
    let _ ← next
    let _ ← next
    readDefinition inner scope opening
  | _ =>
    let t ← peek
    let e ← readForm inner scope
    return .value ⟨t.span.start, ← position⟩ e

/-- Reads top-level forms up to the end of the source. There must be at least one. -/
def readProgram (scope : Scope) : Read Program := do
  let forms ← collect (fun scope => do
    let t ← peek
    match t.kind with
    | .eof => return none
    | .rightParen => fail t.span.start .trailingClose
    | _ =>
      let form ← readTopForm inner scope
      return some (form, form.defined?.elim scope scope.define)) scope
  if forms.isEmpty then unexpected (← peek) .expression
  return forms

end

/-- The readers that may go so many levels deep. -/
def readers : Nat → Readers
  | 0 => .refusing
  | depth + 1 =>
    { form := fun _ scope => readForm (readers depth) scope
      datum := fun _ => readDatum (readers depth)
      template := fun _ scope => readTemplate (readers depth) scope }

/-- Reads a program from a token run, with names that are already defined. -/
def Program.ofRun (globals : List String) (r : TokenRun) : Except Fault Program :=
  (readProgram (readers (maxNesting - 1)) { globals }).run' (.ofRun r)

end LispMachine
