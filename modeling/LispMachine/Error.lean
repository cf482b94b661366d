import LispMachine.Opcode
import LispMachine.Error.Context

/-!
# Errors

What can go wrong, one type for each phase: a text that is no sequence of tokens, a sequence of
tokens that is no program, a name that nothing binds, and an instruction that cannot be carried out.
The constructors are causes; the wording is in the `message` functions.
-/

namespace LispMachine

/-- Why no token can be read at an offset. -/
inductive LexError where
  | unexpectedChar (found : Char) (offset : Nat)
  | unterminatedString (offset : Nat)
  /-- A hash that neither of the two truth values follows. -/
  | invalidHash (offset : Nat)
  /-- A run of digits whose value does not fit in 64 bits. -/
  | numberOverflow (digits : String) (offset : Nat)
deriving DecidableEq, Repr

/-- The wording of a lexical error. -/
def LexError.message : LexError → String
  | unexpectedChar found offset =>
    "unrecognized character '" ++ found.toString ++ "' at offset " ++ offset.repr
  | unterminatedString offset => "unterminated string literal starting at offset " ++ offset.repr
  | invalidHash offset =>
    "invalid '#' literal at offset " ++ offset.repr ++ " (expected #t or #f)"
  | numberOverflow digits offset =>
    "number literal '" ++ digits ++ "' at offset " ++ offset.repr ++ " does not fit in 64 bits"

/-- The kinds of syntax errors. -/
inductive SyntaxErrorKind where
  /-- A token other than the one that the grammar requires. -/
  | unexpectedToken
  /-- The source ends inside an expression. -/
  | unexpectedEof
  /-- Something follows a complete program. -/
  | trailingContent
  | tooDeeplyNested
  /-- A form that is known and not supported. -/
  | unsupported
  /-- Sound tokens that make an ill-formed special form. -/
  | invalidForm
deriving DecidableEq, Repr

/-- A sequence of tokens that does not match the grammar. -/
structure SyntaxError where
  kind : SyntaxErrorKind
  message : String
  /-- What the grammar requires, where it requires one thing. -/
  expected : Option String := none
  /-- The token that stands there instead. -/
  found : Option String := none
  /-- The source around the error, on one line. -/
  context : Option String := none
deriving DecidableEq, Repr

namespace SyntaxError

/-- Attaches the piece of a source around an offset. -/
def withContext (e : SyntaxError) (source : String) (offset : Nat) : SyntaxError :=
  { e with context := some (String.ofList (Context.line source.toList offset)) }

/-- A labelled line below a message, if there is something to put on it. -/
def detail (label : String) : Option String → String
  | some text => "\n" ++ label ++ ": " ++ text
  | none => ""

/-- The message with what was expected, what was found and the context, each on a line. -/
def text (e : SyntaxError) : String :=
  e.message ++ detail "Expected" e.expected ++ detail "Found" e.found ++ detail "Context" e.context

end SyntaxError

/-- The kinds of values that errors tell apart. -/
inductive ValueKind where
  | number
  | string
  | symbol
  | instruction
  | emptyList
  | list
  | closure
deriving DecidableEq, Repr

/-- The wording of a kind of values. -/
def ValueKind.name : ValueKind → String
  | number => "number"
  | string => "string"
  | symbol => "symbol"
  | instruction => "instruction"
  | emptyList => "empty list"
  | list => "list"
  | closure => "closure"

/-- What an instruction asks of a value or an operand. -/
inductive Demand where
  | number
  | list
  | nonEmptyList
  | closure
  | codeBlock
  | numberOperand
deriving DecidableEq, Repr

/-- The wording of a demand. -/
def Demand.name : Demand → String
  | number => "number"
  | list => "list"
  | nonEmptyList => "non-empty list"
  | closure => "closure"
  | codeBlock => "code block"
  | numberOperand => "number operand"

/-- The two kinds of entries on the dump. -/
inductive EntryKind where
  | call
  | join
deriving DecidableEq, Repr

/-- The wording of a kind of dump entry. -/
def EntryKind.name : EntryKind → String
  | call => "call"
  | join => "join"

/-- Why an instruction cannot be carried out. -/
inductive RuntimeError where
  | emptyStack (op : Opcode)
  /-- The code ends where an operand of the instruction should stand. -/
  | missingOperand (op : Opcode)
  | emptyDump (op : Opcode)
  | dumpMismatch (op : Opcode) (expected : EntryKind)
  | typeMismatch (op : Opcode) (expected : Demand) (found : ValueKind)
  /-- The code holds something that is no instruction, given as its text. -/
  | notAnInstruction (found : String)
  | frameOutOfRange (op : Opcode) (depth frames : Nat)
  | offsetOutOfRange (depth offset size : Nat)
  /-- An address with a negative part. -/
  | unresolvedVariable (depth offset : Int)
  | overflow (op : Opcode)
  | divisionByZero
  | dataTooDeep (op : Opcode) (limit : Nat)
  | stepLimitExceeded (limit : Nat)
deriving DecidableEq, Repr

/-- The wording of a runtime error. -/
def RuntimeError.message : RuntimeError → String
  | emptyStack op => op.mnemonic ++ ": stack is empty"
  | missingOperand op => op.mnemonic ++ ": code ended before its operand"
  | emptyDump op => op.mnemonic ++ ": dump is empty"
  | dumpMismatch op expected =>
    op.mnemonic ++ ": expected a " ++ expected.name ++ " entry on the dump"
  | typeMismatch op expected found =>
    op.mnemonic ++ ": expected " ++ expected.name ++ ", found " ++ found.name
  | notAnInstruction found => "expected an instruction, found " ++ found
  | frameOutOfRange op depth frames =>
    op.mnemonic ++ ": no environment frame at depth " ++ depth.repr ++ " (environment has " ++
      frames.repr ++ " frames)"
  | offsetOutOfRange depth offset size =>
    "LD: no binding at offset " ++ offset.repr ++ " of frame " ++ depth.repr ++ " (frame has " ++
      size.repr ++ " values)"
  | unresolvedVariable depth offset =>
    "LD: unresolved variable reference (" ++ depth.repr ++ ", " ++ offset.repr ++ ")"
  | overflow op => op.mnemonic ++ ": integer overflow"
  | divisionByZero => "DIV: division by zero"
  | dataTooDeep op limit =>
    op.mnemonic ++ ": list nested deeper than " ++ limit.repr ++ " levels"
  | stepLimitExceeded limit => "step limit of " ++ limit.repr ++ " exceeded"

/-- Everything that can go wrong between a source text and its result. -/
inductive Error where
  | lexical (e : LexError)
  | malformed (e : SyntaxError)
  | unbound (name : String)
  | runtime (e : RuntimeError)
deriving DecidableEq, Repr

/-- The wording of an error, with the phase in front. -/
def Error.message : Error → String
  | lexical e => "LexError: " ++ e.message
  | malformed e => "SyntaxError: " ++ e.text
  | unbound name => "ScopeError: unbound variable '" ++ name ++ "'"
  | runtime e => "InterpreterError: " ++ e.message

end LispMachine
