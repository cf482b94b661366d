import LispMachine.Form.Reader
import LispMachine.Bytecode
import LispMachine.Machine

/-!
# Programs from source to result

Compilation goes from text to tokens, from tokens to forms and from forms to code. It is relative to
the global names that are already defined, and gives the names that are defined afterwards, so that a
later program can be compiled against the same global frame.
-/

namespace LispMachine

/-- Code, and the global names once it has run, in the order of their values. -/
structure Compiled where
  code : Code
  globals : List String
deriving Repr

/-- Compiles a source against global names. -/
def compile (d : Dialect) (globals : List String) (source : String) : Except Error Compiled :=
  match Program.ofRun globals (.ofText d source) with
  | .ok program => .ok { code := program.code, globals := globals ++ program.definedNames }
  | .error fault => .error (fault.toError source)

/-- How many steps a program may take unless a caller says otherwise. -/
def defaultStepLimit : Nat := 1000000

/-- Compiles a source and runs it. The result is the value of its last form, or nothing if that is a
definition. -/
def evaluate (source : String) : Except Error (Option Value) :=
  match compile {} [] source with
  | .error e => .error e
  | .ok compiled =>
    match ((Machine.ofCode compiled.code).runWithLimit defaultStepLimit).1 with
    | .ok result => .ok result
    | .error e => .error (.runtime e)

end LispMachine
