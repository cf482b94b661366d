import LispMachine.Token
import LispMachine.Form.Scope
import LispMachine.Value

/-!
# Forms

The syntax trees of the language. A tree keeps everything of its source but the layout: it knows the
two ways to write a quotation, and the spans of the tokens that the emitted instructions point back
to. Variables are resolved: each occurrence carries the address of its value.

A quasiquoted template is a datum with holes, where the value of an expression goes. A top-level
form is a definition or an expression, and a program is a list of them.
-/

namespace LispMachine

/-- A constant that is written down as it is. -/
inductive Literal where
  | number (n : Number)
  | boolean (b : Bool)
  | string (text : String)
deriving DecidableEq, Repr

/-- The value of a literal. A truth value is a number. -/
def Literal.value : Literal → Value
  | number n => .number n
  | boolean b => .ofBool b
  | string text => .string text

/-- A word in quoted data, where keywords and operators are symbols like any other. -/
inductive Word where
  | identifier (name : String)
  | keyword (k : Keyword)
  | operator (o : Operator)
deriving DecidableEq, Repr

/-- The name of the symbol that a word is. -/
def Word.name : Word → String
  | identifier name => name
  | keyword k => k.name
  | operator o => o.symbol

/-- The marks that stand before a datum. -/
inductive Mark where
  | quote
  | quasiquote
  | unquote
deriving DecidableEq, Repr

/-- The symbol that a mark stands for. -/
def Mark.name : Mark → String
  | quote => "quote"
  | quasiquote => "quasiquote"
  | unquote => "unquote"

/-- Quoted data, as it is written. -/
inductive Datum where
  | literal (l : Literal)
  | word (w : Word)
  | list (items : List Datum)
  /-- A datum with a mark before it. -/
  | marked (mark : Mark) (datum : Datum)
deriving Repr

namespace Datum

mutual
/-- The value that a datum stands for. A marked datum is the list of the mark's name and the
datum. -/
def value : Datum → Value
  | .literal l => l.value
  | .word w => .symbol w.name
  | .list items => .list (values items)
  | .marked mark datum => .list [.symbol mark.name, datum.value]
/-- The values of data. -/
def values : List Datum → List Value
  | [] => []
  | d :: ds => d.value :: values ds
end

@[simp] theorem values_eq_map (ds : List Datum) : values ds = ds.map value := by
  induction ds with
  | nil => rfl
  | cons d ds ih => simp [values, ih]

end Datum

/-- The primitives of one operand. -/
inductive UnaryOp where
  | car
  | cdr
  | consp
deriving DecidableEq, Repr

namespace UnaryOp

/-- The keyword that a primitive is written with. -/
def keyword : UnaryOp → Keyword
  | car => .car
  | cdr => .cdr
  | consp => .consp

/-- The instruction of a primitive. -/
def opcode : UnaryOp → Opcode
  | car => .car
  | cdr => .cdr
  | consp => .consp

end UnaryOp

/-- The primitives of two operands. -/
inductive BinaryOp where
  | cons
  | operator (o : Operator)
  | and
  | or
deriving DecidableEq, Repr

namespace BinaryOp

/-- The token that a primitive is written with. -/
def token : BinaryOp → TokenKind
  | cons => .keyword .cons
  | operator o => .operator o
  | and => .identifier "and"
  | or => .identifier "or"

/-- The name of a primitive. -/
def name (op : BinaryOp) : String := op.token.spelling

/-- The primitive that a name stands for where nothing binds it. -/
def ofName? (name : String) : Option BinaryOp :=
  if name = "and" then some and else if name = "or" then some or else none

/-- The instruction of a primitive. -/
def opcode : BinaryOp → Opcode
  | cons => .cons
  | operator .add => .add
  | operator .sub => .sub
  | operator .mul => .mul
  | operator .div => .div
  | operator .eq => .eq
  | operator .ne => .ne
  | operator .lt => .lt
  | operator .le => .le
  | operator .gt => .ht
  | operator .ge => .he
  | and => .and
  | or => .or

end BinaryOp

mutual
/-- An expression. -/
inductive Expr where
  | literal (span : Span) (l : Literal)
  /-- The empty list. -/
  | null (span : Span)
  | var (span : Span) (name : String) (address : Address)
  /-- A datum behind a quotation mark. -/
  | quote (span : Span) (datum : Datum)
  /-- A datum in a form that starts with the keyword. -/
  | quoteForm (parens : Parens) (datum : Datum)
  | quasi (span : Span) (template : Template)
  | unary (parens : Parens) (op : UnaryOp) (operand : Expr)
  | binary (parens : Parens) (op : BinaryOp) (left right : Expr)
  | ifElse (parens : Parens) (condition consequent alternative : Expr)
  | lambda (parens : Parens) (params : List String) (body : List Expr)
  | letIn (parens : Parens) (bindings : List (String × Expr)) (body : List Expr)
  | letrec (parens : Parens) (bindings : List (String × Expr)) (body : List Expr)
  /-- Expressions one after the other, for the value of the last. -/
  | sequence (parens : Parens) (forms : List Expr)
  | app (parens : Parens) (function : Expr) (args : List Expr)
/-- A datum with holes. -/
inductive Template where
  | hole (e : Expr)
  | list (parens : Parens) (items : List Template)
  /-- Data that no hole can stand in. -/
  | datum (d : Datum)
end

/-- A form at the top level of a program. -/
inductive TopForm where
  | value (span : Span) (e : Expr)
  | defineVariable (parens : Parens) (name : String) (e : Expr)
  | defineFunction (parens : Parens) (name : String) (params : List String) (body : List Expr)

/-- The name that a top-level form defines. -/
def TopForm.defined? : TopForm → Option String
  | value _ _ => none
  | defineVariable _ name _ => some name
  | defineFunction _ name _ _ => some name

/-- A program: its top-level forms, in order. -/
abbrev Program := List TopForm

/-- The names that a program defines, in order. -/
def Program.definedNames (p : Program) : List String := p.filterMap TopForm.defined?

namespace Template

mutual
/-- The value of a template without holes; a template with a hole has none. -/
def value? : Template → Option Value
  | .hole _ => none
  | .list _ items => (values? items).map .list
  | .datum d => some d.value
/-- The values of templates, if none of them has a hole. -/
def values? : List Template → Option (List Value)
  | [] => some []
  | t :: ts =>
    match t.value?, values? ts with
    | some v, some vs => some (v :: vs)
    | _, _ => none
end

end Template

end LispMachine
