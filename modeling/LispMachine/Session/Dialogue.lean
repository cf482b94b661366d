import LispMachine.Session
import LispMachine.Text.Blank
import LispMachine.Text.Bytes

/-!
# The dialogue

What an interactive session answers to the lines it is given. A line is an expression or a definition
to evaluate, or a command, which starts with a colon. Everything here is a function from lines to
output; reading and printing are left to the program's main loop.
-/

namespace LispMachine.Dialogue

/-- What is said before the first line is read. -/
def banner : List String :=
  [ "SECD Lisp - compiled to bytecode for the SECD machine",
    "Enter expressions like: (let ((x 1) (y 4)) (+ x y))",
    "Definitions persist: (define (square x) (* x x))",
    "Type :help for more commands, or Ctrl+C to exit.",
    "" ]

/-- What is said at the end. -/
def farewell : List String := ["Goodbye!"]

/-- The answer to `:help`. -/
def help : List String :=
  [ "SECD Lisp REPL:",
    "  <expr>        - Compile and run, printing the top of the Stack",
    "  :code <expr>  - Show the bytecode for an expression",
    "  :step <expr>  - Run an expression one instruction at a time",
    "                  (definitions made while stepping are discarded)",
    "  :env          - Show global definitions",
    "  :help         - Show this help message",
    "  :quit         - Exit the interpreter",
    "  Ctrl+C        - Exit the interpreter",
    "",
    "Language:",
    "  Numbers: 42   Booleans: #t #f   Strings: \"text\"   Empty list: null",
    "  Arithmetic: + - * /   Comparison: = != < <= > >=   Logic: and or",
    "  Lists: cons car cdr consp, 'quoted, `(quasi ,quoted)",
    "  Forms: if, lambda, let, letrec, begin, define",
    "",
    "Examples:",
    "  (- 10 (+ 2 (* 4 5)))",
    "  (letrec ((f (lambda (n) (if (= n 0) 1 (* n (f (- n 1))))))) (f 6))",
    "  `(1 ,(+ 1 2) 3)",
    "" ]

/-- How an error is told. -/
def errorLine (e : Error) : String := "Error: " ++ e.message

/-- The answer to `:env`: every global with its value. -/
def environmentLines (s : Session) : List String :=
  match s.bindings with
  | [] => ["No global definitions."]
  | bindings =>
    ("Global definitions (" ++ bindings.length.repr ++ " total):") ::
      bindings.map fun (name, v) => "  " ++ name ++ " = " ++ v.text

/-- The answer to `:code`: the bytecode of a source. -/
def codeLines (s : Session) (source : String) : List String :=
  match s.compile source with
  | .ok compiled => [(Value.list compiled.code).text]
  | .error e => [errorLine e]

/-- The text that an instruction was emitted for. Code that an earlier line defined points into that
line, so a span that does not fit the line at hand shows nothing. -/
def originText (source : String) (origin : Option Span) : String :=
  match origin.bind fun span => Text.slice? span.start span.stop source.toList with
  | some piece => String.ofList piece
  | none => ""

/-- One executed instruction: its number and name, the source it comes from, the stack with its top
last, and the depth of the dump. -/
def stepLine (source : String) (e : StepEvent) : String :=
  Text.padLeft 4 e.step.repr ++ "  " ++ Text.padRight 6 e.opcode.mnemonic ++ " " ++
    Text.padRight 24 (originText source e.origin) ++ " S=[" ++
    " ".intercalate (e.stack.reverse.map Value.text) ++ "] D=" ++ e.dumpDepth.repr

/-- What a machine that was stepped to its end says last. -/
def resultLine (m : Machine) : String :=
  match m.top with
  | some v => "=> " ++ v.text
  | none => "=> (nothing)"

/-- Steps a machine with a budget and tells every step, in front of what was told so far, the newest
first. A machine that is halted says so only at the next step. -/
def stepFor (source : String) : Nat → Machine → List String → List String
  | 0, _, told => ("Stopped after " ++ defaultStepLimit.repr ++ " steps") :: told
  | budget + 1, m, told =>
    match m.next with
    | .ok (some move) =>
      let after := m.advance move
      stepFor source budget after (stepLine source (after.event move) :: told)
    | .ok none => resultLine m :: told
    | .error e => errorLine (.runtime e) :: told

/-- The answer to `:step`: every step of a source, run on a copy of the global frame. -/
def stepLines (s : Session) (source : String) : List String :=
  match s.machine source with
  | .ok m => (stepFor source defaultStepLimit m []).reverse
  | .error e => [errorLine e]

/-- What a line does: the answer, and the session it leaves, or none if it ends the dialogue. -/
structure Reply where
  output : List String
  session : Option Session

/-- Evaluates a line. A definition has no answer. -/
def evaluate (s : Session) (line : String) : Reply :=
  match s.eval line with
  | (.ok (some v), s) => ⟨[v.text], some s⟩
  | (.ok none, s) => ⟨[], some s⟩
  | (.error e, s) => ⟨[errorLine e], some s⟩

/-- Carries out a line, the blanks around it removed. -/
def respondTrimmed (s : Session) (line : List Char) : Reply :=
  let (word, rest) := Text.splitWord line
  let command := String.ofList word
  let source := String.ofList rest
  if line.isEmpty then ⟨[], some s⟩
  else if command = ":help" then ⟨help, some s⟩
  else if command = ":env" then ⟨environmentLines s, some s⟩
  else if command = ":code" then ⟨codeLines s source, some s⟩
  else if command = ":step" then ⟨stepLines s source, some s⟩
  else if command = ":quit" ∨ command = ":exit" then ⟨farewell, none⟩
  else if word.head? = some ':' then
    ⟨["Unknown command " ++ command ++ "; type :help for a list"], some s⟩
  else evaluate s (String.ofList line)

/-- Carries out a line. -/
def respond (s : Session) (line : String) : Reply := respondTrimmed s (Text.trim line.toList)

/-- The answers to lines from a session on. An interrupt ends the dialogue, as does the end of the
lines. -/
def answers (s : Session) : List (Option String) → List String
  | [] | none :: _ => farewell
  | some line :: rest =>
    let reply := respond s line
    match reply.session with
    | some s => reply.output ++ answers s rest
    | none => reply.output

/-- Everything that is printed in a dialogue, for the lines that are typed and the interrupts
between them. -/
def transcript (lines : List (Option String)) : List String := banner ++ answers {} lines

end LispMachine.Dialogue
