import LispMachine.Form.Complaint
import LispMachine.Proofs.Spelling

/-!
# The grammar and the rules of code generation

Programs as they are meant, with neither spans nor addresses: a `Term` is an expression, a
`TermTemplate` a datum with holes, and a `Listing` a program. Everything that the language says about
a program is a function of these trees:

* `kinds` are the tokens that a tree is written with;
* `WellFormed` is what a tree must satisfy in a scope: names are bound, no name is bound twice by one
  form, and no body is empty;
* `nesting` is how many levels deep its forms, data and templates contain each other;
* `code` are the rules of code generation, as a function of the tree and its scope. The instructions
  carry no origin.

None of this refers to the reader, to feeds or to the emission of code, which are what is to be judged by
it. Where a condition is about all items of a list, the list has a function of its own beside the tree's,
so that the recursion is structural; the lemmas beside them give back the statement about each item.

`LispMachine.Proofs.Acceptance` shows that the compiler accepts exactly the well-formed programs that
are not nested too deeply, and that it emits the code of the rules.
-/

namespace LispMachine

mutual
/-- An expression. -/
inductive Term where
  | literal (l : Literal)
  /-- The empty list. -/
  | null
  | var (name : String)
  /-- A datum behind a quotation mark. -/
  | quote (datum : Datum)
  /-- A datum in a form that starts with the keyword. -/
  | quoteForm (datum : Datum)
  | quasi (template : TermTemplate)
  | unary (op : UnaryOp) (operand : Term)
  | binary (op : BinaryOp) (left right : Term)
  | ifElse (condition consequent alternative : Term)
  | lambda (params : List String) (body : List Term)
  | letIn (bindings : List (String × Term)) (body : List Term)
  | letrec (bindings : List (String × Term)) (body : List Term)
  /-- Expressions one after the other, for the value of the last. -/
  | sequence (forms : List Term)
  | app (function : Term) (args : List Term)
/-- A datum with holes. -/
inductive TermTemplate where
  | hole (t : Term)
  | list (items : List TermTemplate)
  /-- Data that no hole can stand in. -/
  | datum (d : Datum)
end

/-- A form at the top level of a program. -/
inductive TopTerm where
  | value (t : Term)
  | defineVariable (name : String) (t : Term)
  | defineFunction (name : String) (params : List String) (body : List Term)

/-- The name that a top-level form defines. -/
def TopTerm.defined? : TopTerm → Option String
  | value _ => none
  | defineVariable name _ => some name
  | defineFunction name _ _ => some name

/-- A program as it is written: its top-level forms, in order. -/
abbrev Listing := List TopTerm

/-- The names that a program defines, in order. -/
def Listing.definedNames (p : Listing) : List String := p.filterMap TopTerm.defined?

/-! ## Tokens -/

mutual
/-- The tokens of an expression. -/
def Term.kinds : Term → List TokenKind
  | .literal l => [l.kind]
  | .null => [.keyword .null]
  | .var name => [.identifier name]
  | .quote datum => .quote :: datum.kinds
  | .quoteForm datum => inParens (.keyword .quote :: datum.kinds)
  | .quasi template => .backquote :: template.kinds
  | .unary op operand => inParens (.keyword op.keyword :: operand.kinds)
  | .binary op left right => inParens (op.token :: (left.kinds ++ right.kinds))
  | .ifElse condition consequent alternative =>
    inParens (.keyword .if_ :: (condition.kinds ++ (consequent.kinds ++ alternative.kinds)))
  | .lambda params body => inParens (.keyword .lambda :: (nameKinds params ++ termKinds body))
  | .letIn bindings body =>
    inParens (.keyword .let_ :: (inParens (initKinds bindings) ++ termKinds body))
  | .letrec bindings body =>
    inParens (.keyword .letrec :: (inParens (initKinds bindings) ++ termKinds body))
  | .sequence forms => inParens (.keyword .begin_ :: termKinds forms)
  | .app function args => inParens (function.kinds ++ termKinds args)
/-- The tokens of expressions. -/
def termKinds : List Term → List TokenKind
  | [] => []
  | t :: ts => t.kinds ++ termKinds ts
/-- The tokens of bindings. -/
def initKinds : List (String × Term) → List TokenKind
  | [] => []
  | (name, t) :: rest => inParens (.identifier name :: t.kinds) ++ initKinds rest
/-- The tokens of a template. -/
def TermTemplate.kinds : TermTemplate → List TokenKind
  | .hole t => .comma :: t.kinds
  | .datum d => d.kinds
  | .list items => inParens (itemKinds items)
/-- The tokens of templates. -/
def itemKinds : List TermTemplate → List TokenKind
  | [] => []
  | t :: ts => t.kinds ++ itemKinds ts
end

/-- The tokens of a top-level form. -/
def TopTerm.kinds : TopTerm → List TokenKind
  | .value t => t.kinds
  | .defineVariable name t => inParens (.keyword .define :: .identifier name :: t.kinds)
  | .defineFunction name params body =>
    inParens (.keyword .define :: (nameKinds (name :: params) ++ termKinds body))

/-- The tokens of a program. -/
def Listing.kinds (p : Listing) : List TokenKind := p.flatMap TopTerm.kinds

theorem termKinds_eq_flatMap (ts : List Term) : termKinds ts = ts.flatMap Term.kinds := by
  induction ts with
  | nil => rfl
  | cons t ts ih => rw [termKinds, ih, List.flatMap_cons]

theorem itemKinds_eq_flatMap (ts : List TermTemplate) :
    itemKinds ts = ts.flatMap TermTemplate.kinds := by
  induction ts with
  | nil => rfl
  | cons t ts ih => rw [itemKinds, ih, List.flatMap_cons]

theorem initKinds_eq_flatMap (bindings : List (String × Term)) :
    initKinds bindings = bindings.flatMap fun b => inParens (.identifier b.1 :: b.2.kinds) := by
  induction bindings with
  | nil => rfl
  | cons b bs ih => rw [initKinds, ih, List.flatMap_cons]

/-! ## Well-formed programs -/

/-- A primitive can be used in a scope: no variable has its name, if its name is one for variables. -/
def BinaryOp.Free (scope : Scope) (op : BinaryOp) : Prop :=
  ∀ name, BinaryOp.ofName? name = some op → scope.resolve name = none

/-- A datum in a template that is no template of its own, as lists are, and no hole. -/
def Datum.Plain : Datum → Prop
  | .literal _ | .word _ | .marked .quote _ => True
  | .list _ | .marked .quasiquote _ | .marked .unquote _ => False

mutual
/-- An expression is well-formed where the names of a scope are bound. -/
def Term.WellFormed (scope : Scope) : Term → Prop
  | .literal _ | .null | .quote _ | .quoteForm _ => True
  | .var name => (scope.resolve name).isSome
  | .quasi template => template.WellFormed scope
  | .unary _ operand => operand.WellFormed scope
  | .binary op left right => op.Free scope ∧ left.WellFormed scope ∧ right.WellFormed scope
  | .ifElse condition consequent alternative =>
    condition.WellFormed scope ∧ consequent.WellFormed scope ∧ alternative.WellFormed scope
  | .lambda params body => params.Nodup ∧ body ≠ [] ∧ WellFormedAll (scope.push params) body
  | .letIn bindings body =>
    (bindings.map (·.1)).Nodup ∧ WellFormedInits scope bindings ∧ body ≠ [] ∧
      WellFormedAll (scope.push (bindings.map (·.1))) body
  | .letrec bindings body =>
    (bindings.map (·.1)).Nodup ∧ WellFormedInits (scope.push (bindings.map (·.1))) bindings ∧
      body ≠ [] ∧ WellFormedAll (scope.push (bindings.map (·.1))) body
  | .sequence forms => forms ≠ [] ∧ WellFormedAll scope forms
  | .app function args => function.WellFormed scope ∧ WellFormedAll scope args
/-- Every one of some expressions is well-formed. -/
def WellFormedAll (scope : Scope) : List Term → Prop
  | [] => True
  | t :: ts => t.WellFormed scope ∧ WellFormedAll scope ts
/-- Every one of some initialisers is well-formed. -/
def WellFormedInits (scope : Scope) : List (String × Term) → Prop
  | [] => True
  | (_, t) :: rest => t.WellFormed scope ∧ WellFormedInits scope rest
/-- A template is well-formed: its holes are, and its data hold none. -/
def TermTemplate.WellFormed (scope : Scope) : TermTemplate → Prop
  | .hole t => t.WellFormed scope
  | .datum d => d.Plain
  | .list items => WellFormedItems scope items
/-- Every one of some templates is well-formed. -/
def WellFormedItems (scope : Scope) : List TermTemplate → Prop
  | [] => True
  | t :: ts => t.WellFormed scope ∧ WellFormedItems scope ts
end

/-- A top-level form is well-formed after the given global names. A definition adds its own name
first. -/
def TopTerm.WellFormed (globals : List String) : TopTerm → Prop
  | .value t => t.WellFormed { globals }
  | .defineVariable name t => t.WellFormed { globals := globals ++ [name] }
  | .defineFunction name params body =>
    params.Nodup ∧ body ≠ [] ∧ WellFormedAll { locals := [params], globals := globals ++ [name] } body

/-- Each form of a program is well-formed after the names that are defined before it. -/
def Listing.FormsWellFormed : List String → Listing → Prop
  | _, [] => True
  | globals, form :: rest =>
    form.WellFormed globals ∧ FormsWellFormed (globals ++ form.defined?.toList) rest

theorem wellFormedAll_iff {scope : Scope} {ts : List Term} :
    WellFormedAll scope ts ↔ ∀ t ∈ ts, t.WellFormed scope := by
  induction ts with
  | nil => simp [WellFormedAll]
  | cons t ts ih => simp [WellFormedAll, ih]

theorem wellFormedInits_iff {scope : Scope} {bindings : List (String × Term)} :
    WellFormedInits scope bindings ↔ ∀ b ∈ bindings, b.2.WellFormed scope := by
  induction bindings with
  | nil => simp [WellFormedInits]
  | cons b bs ih => simp [WellFormedInits, ih]

theorem wellFormedItems_iff {scope : Scope} {ts : List TermTemplate} :
    WellFormedItems scope ts ↔ ∀ t ∈ ts, t.WellFormed scope := by
  induction ts with
  | nil => simp [WellFormedItems]
  | cons t ts ih => simp [WellFormedItems, ih]

/-! ## Nesting -/

mutual
/-- How many levels deep a datum is. -/
def Datum.nesting : Datum → Nat
  | .literal _ | .word _ => 1
  | .list items => dataNesting items + 1
  | .marked _ datum => datum.nesting + 1
/-- How many levels deep the deepest of some data is. -/
def dataNesting : List Datum → Nat
  | [] => 0
  | d :: ds => max d.nesting (dataNesting ds)
end

mutual
/-- How many levels deep an expression is. The word `null` is no level where it is called. -/
def Term.nesting : Term → Nat
  | .literal _ | .null | .var _ => 1
  | .quote datum | .quoteForm datum => datum.nesting + 1
  | .quasi template => template.nesting + 1
  | .unary _ operand => operand.nesting + 1
  | .binary _ left right => max left.nesting right.nesting + 1
  | .ifElse condition consequent alternative =>
    max condition.nesting (max consequent.nesting alternative.nesting) + 1
  | .lambda _ body => termsNesting body + 1
  | .letIn bindings body | .letrec bindings body =>
    max (initsNesting bindings) (termsNesting body) + 1
  | .sequence forms => termsNesting forms + 1
  | .app .null args => termsNesting args + 1
  | .app function args => max function.nesting (termsNesting args) + 1
/-- How many levels deep the deepest of some expressions is. -/
def termsNesting : List Term → Nat
  | [] => 0
  | t :: ts => max t.nesting (termsNesting ts)
/-- How many levels deep the deepest of some initialisers is. -/
def initsNesting : List (String × Term) → Nat
  | [] => 0
  | (_, t) :: rest => max t.nesting (initsNesting rest)
/-- How many levels deep a template is. -/
def TermTemplate.nesting : TermTemplate → Nat
  | .hole t => t.nesting + 1
  | .datum d => d.nesting + 1
  | .list items => itemsNesting items + 1
/-- How many levels deep the deepest of some templates is. -/
def itemsNesting : List TermTemplate → Nat
  | [] => 0
  | t :: ts => max t.nesting (itemsNesting ts)
end

/-- How many levels deep a top-level form is. A definition is a level of its own. -/
def TopTerm.nesting : TopTerm → Nat
  | .value t => t.nesting
  | .defineVariable _ t => t.nesting + 1
  | .defineFunction _ _ body => termsNesting body + 1

theorem Datum.nesting_pos (d : Datum) : 0 < d.nesting := by
  cases d <;> exact Nat.succ_pos _

theorem Term.nesting_pos (t : Term) : 0 < t.nesting := by
  cases t with
  | app function args => cases function <;> exact Nat.succ_pos _
  | _ => exact Nat.succ_pos _

theorem TermTemplate.nesting_pos (t : TermTemplate) : 0 < t.nesting := by
  cases t <;> exact Nat.succ_pos _

theorem dataNesting_le {ds : List Datum} {n : Nat} : dataNesting ds ≤ n ↔ ∀ d ∈ ds, d.nesting ≤ n := by
  induction ds with
  | nil => simp [dataNesting]
  | cons d ds ih => rw [dataNesting, Nat.max_le, ih, List.forall_mem_cons]

theorem termsNesting_le {ts : List Term} {n : Nat} : termsNesting ts ≤ n ↔ ∀ t ∈ ts, t.nesting ≤ n := by
  induction ts with
  | nil => simp [termsNesting]
  | cons t ts ih => rw [termsNesting, Nat.max_le, ih, List.forall_mem_cons]

theorem initsNesting_le {bindings : List (String × Term)} {n : Nat} :
    initsNesting bindings ≤ n ↔ ∀ b ∈ bindings, b.2.nesting ≤ n := by
  induction bindings with
  | nil => simp [initsNesting]
  | cons b bs ih => rw [initsNesting, Nat.max_le, ih, List.forall_mem_cons]

theorem itemsNesting_le {ts : List TermTemplate} {n : Nat} :
    itemsNesting ts ≤ n ↔ ∀ t ∈ ts, t.nesting ≤ n := by
  induction ts with
  | nil => simp [itemsNesting]
  | cons t ts ih => rw [itemsNesting, Nat.max_le, ih, List.forall_mem_cons]

/-- A program of the language, after the given global names. It has at least one form. -/
structure Listing.WellFormed (globals : List String) (p : Listing) : Prop where
  nonempty : p ≠ []
  forms : p.FormsWellFormed globals
  nesting : ∀ form ∈ p, form.nesting ≤ maxNesting

/-! ## The rules of code generation -/

namespace Rule

/-- An instruction without an origin. -/
abbrev op (code : Opcode) : Value := .op code none

/-- A constant is loaded. -/
def constant (v : Value) : Code := [op .ldc, v]

/-- The value at an address is loaded. -/
def load (a : Address) : Code :=
  [op .ld, .number (.ofIndex a.depth), .number (.ofIndex a.offset)]

/-- A list is built from its last item to its first. -/
def list (items : List Code) : Code := op .nil :: items.reverse.flatMap (· ++ [op .cons])

/-- Of codes one after the other, each value but the last is dropped. -/
def sequence : List Code → Code
  | [] => []
  | [code] => code
  | code :: codes => code ++ op .pop :: sequence codes

/-- The block of a function ends with the return. -/
def function (body : List Code) : Value := .list (sequence body ++ [op .rtn])

/-- The block of a branch ends with the way back. -/
def branch (code : Code) : Value := .list (code ++ [op .join])

end Rule

namespace TermTemplate

mutual
/-- The value of a template without holes; a template with a hole has none. -/
def value? : TermTemplate → Option Value
  | .hole _ => none
  | .list items => (values? items).map .list
  | .datum d => some d.value
/-- The values of templates, if none of them has a hole. -/
def values? : List TermTemplate → Option (List Value)
  | [] => some []
  | t :: ts =>
    match t.value?, values? ts with
    | some v, some vs => some (v :: vs)
    | _, _ => none
end

end TermTemplate

mutual
/-- The code of an expression in a scope. -/
def Term.code (scope : Scope) : Term → Code
  | .literal l => Rule.constant l.value
  | .null => [Rule.op .nil]
  | .var name => (scope.resolve name).elim [] Rule.load
  | .quote datum | .quoteForm datum => Rule.constant datum.value
  | .quasi template => template.code scope
  | .unary op operand => operand.code scope ++ [Rule.op op.opcode]
  | .binary op left right => right.code scope ++ left.code scope ++ [Rule.op op.opcode]
  | .ifElse condition consequent alternative =>
    condition.code scope ++ [Rule.op .sel, Rule.branch (consequent.code scope),
      Rule.branch (alternative.code scope)]
  | .lambda params body => [Rule.op .ldf, Rule.function (termCodes (scope.push params) body)]
  | .letIn bindings body =>
    Rule.list (termInitCodes scope bindings) ++
      [Rule.op .ldf, Rule.function (termCodes (scope.push (bindings.map (·.1))) body), Rule.op .ap]
  | .letrec bindings body =>
    Rule.op .dum :: Rule.list (termInitCodes (scope.push (bindings.map (·.1))) bindings) ++
      [Rule.op .ldf, Rule.function (termCodes (scope.push (bindings.map (·.1))) body), Rule.op .rap]
  | .sequence forms => Rule.sequence (termCodes scope forms)
  | .app function args => Rule.list (termCodes scope args) ++ function.code scope ++ [Rule.op .ap]
/-- The codes of expressions. -/
def termCodes (scope : Scope) : List Term → List Code
  | [] => []
  | t :: ts => t.code scope :: termCodes scope ts
/-- The codes of initialisers. -/
def termInitCodes (scope : Scope) : List (String × Term) → List Code
  | [] => []
  | (_, t) :: rest => t.code scope :: termInitCodes scope rest
/-- The code of a template. A part without holes is a constant, and a list with holes is built from
its items. -/
def TermTemplate.code (scope : Scope) : TermTemplate → Code
  | .hole t => t.code scope
  | .datum d => Rule.constant d.value
  | .list items =>
    match TermTemplate.values? items with
    | some vs => Rule.constant (.list vs)
    | none => Rule.list (termItemCodes scope items)
/-- The codes of the items of a template. -/
def termItemCodes (scope : Scope) : List TermTemplate → List Code
  | [] => []
  | t :: ts => t.code scope :: termItemCodes scope ts
end

/-- The code of a top-level form after the given global names. -/
def TopTerm.code (globals : List String) : TopTerm → Code
  | .value t => t.code { globals }
  | .defineVariable name t => t.code { globals := globals ++ [name] } ++ [Rule.op .defun]
  | .defineFunction name params body =>
    [Rule.op .ldf, Rule.function (termCodes { locals := [params], globals := globals ++ [name] } body),
      Rule.op .defun]

/-- The code that drops the value of a form which is not the last. A definition leaves none. -/
def TopTerm.drop : TopTerm → Code
  | .value _ => [Rule.op .pop]
  | _ => []

/-- The code of a program after the given global names. -/
def Listing.code : List String → Listing → Code
  | _, [] => []
  | globals, [form] => form.code globals
  | globals, form :: next :: rest =>
    form.code globals ++ form.drop ++ code (globals ++ form.defined?.toList) (next :: rest)

end LispMachine
