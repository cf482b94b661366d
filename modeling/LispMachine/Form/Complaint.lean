import LispMachine.Token
import LispMachine.Error

/-!
# What can be wrong with a form

The reader of forms stops with a `Fault`: a lexical error that it came to, a name that nothing binds,
or a complaint about the tokens at an offset. Which words an error has is decided here, and which
piece of the source it shows only when the fault is turned into an error, so that the reader itself
never sees the source.
-/

namespace LispMachine

/-- How many forms, data and templates can stand inside each other. -/
def maxNesting : Nat := 64

/-- What the grammar asks for at a place where it takes only one thing. -/
inductive Expectation where
  | expression
  | datum
  | parameterList
  | parameter
  | bindingList
  | binding
  | variableName
  | bindingEnd
  | quoteEnd
  | definedName
  | functionName
  | defineEnd
deriving DecidableEq, Repr

/-- How errors call what the grammar asks for. -/
def Expectation.description : Expectation → String
  | expression => "an expression"
  | datum => "a datum"
  | parameterList => "'(' opening the parameter list"
  | parameter => "a parameter name or ')'"
  | bindingList => "'(' opening the binding list"
  | binding => "'(' opening a binding or ')'"
  | variableName => "a variable name"
  | bindingEnd => "')' closing the binding"
  | quoteEnd => "')' closing quote"
  | definedName => "a name or '(' after define"
  | functionName => "the name of the function being defined"
  | defineEnd => "')' closing define"

/-- A reason to reject a sequence of tokens. -/
inductive Complaint where
  | unexpected (found : TokenKind) (expected : Expectation)
  /-- A closing parenthesis between two top-level forms. -/
  | trailingClose
  | tooDeeplyNested
  | operandCount (name : String) (arity found : Nat)
  | emptyBody (form : Keyword)
  | emptySequence
  | emptyApplication
  | duplicateParameter (name : String)
  | duplicateBinding (name : String) (form : Keyword)
  | nestedDefinition
  | unsupportedDefinition
  | nestedQuasiquote
  | strayUnquote
deriving DecidableEq, Repr

namespace Complaint

/-- The kind of error that a complaint is. -/
def kind : Complaint → SyntaxErrorKind
  | unexpected .eof _ => .unexpectedEof
  | unexpected _ _ => .unexpectedToken
  | trailingClose => .trailingContent
  | tooDeeplyNested => .tooDeeplyNested
  | unsupportedDefinition | nestedQuasiquote => .unsupported
  | operandCount .. | emptyBody _ | emptySequence | emptyApplication | duplicateParameter _
  | duplicateBinding .. | nestedDefinition | strayUnquote => .invalidForm

/-- The wording of a complaint. -/
def message : Complaint → String
  | unexpected found expected =>
    "expected " ++ expected.description ++ ", found " ++ found.description
  | trailingClose => "unexpected ')' after a complete expression"
  | tooDeeplyNested => "expression nested deeper than " ++ maxNesting.repr ++ " levels"
  | operandCount name arity found =>
    "'" ++ name ++ "' expects " ++ arity.repr ++ (if arity = 1 then " operand" else " operands") ++
      ", found " ++ found.repr
  | emptyBody form => "'" ++ form.name ++ "' has an empty body"
  | emptySequence => "'begin' needs at least one expression"
  | emptyApplication => "cannot evaluate the empty application ()"
  | duplicateParameter name => "duplicate parameter '" ++ name ++ "'"
  | duplicateBinding name form => "duplicate binding '" ++ name ++ "' in '" ++ form.name ++ "'"
  | nestedDefinition => "define is only allowed at top level"
  | unsupportedDefinition => "define-macro is not supported"
  | nestedQuasiquote => "nested quasiquote is not supported"
  | strayUnquote => "unquote ',' outside of a quasiquote"

/-- What was asked for, where one thing was. -/
def expected? : Complaint → Option String
  | unexpected _ expected => some expected.description
  | _ => none

/-- The token that a complaint is about, where it is about one. -/
def found? : Complaint → Option String
  | unexpected found _ => some found.description
  | trailingClose => some TokenKind.rightParen.description
  | _ => none

/-- A complaint as an error that shows no source yet. -/
def toError (c : Complaint) : SyntaxError :=
  { kind := c.kind, message := c.message, expected := c.expected?, found := c.found? }

end Complaint

/-- Why a reader of forms stopped. -/
inductive Fault where
  | lexical (e : LexError)
  | malformed (offset : Nat) (c : Complaint)
  | unbound (name : String)
deriving DecidableEq, Repr

/-- The error of a fault in a source: a complaint shows the source around its offset. -/
def Fault.toError (source : String) : Fault → Error
  | lexical e => .lexical e
  | malformed offset c => .malformed (c.toError.withContext source offset)
  | unbound name => .unbound name

end LispMachine
