import LispMachine.Session.Dialogue

/-!
# The command line

Reads lines from standard input and prints the answers of the dialogue. The prompt is shown only to a
terminal.
-/

namespace LispMachine

/-- Prints lines. -/
def printLines (lines : List String) : IO Unit := lines.forM IO.println

/-- Answers lines of input until one of them, or the end of the input, ends the dialogue. -/
partial def dialogue (s : Session) : IO Unit := do
  let input ← IO.getStdin
  if ← input.isTty then
    IO.print "secd> "
    (← IO.getStdout).flush
  let line ← input.getLine
  if line.isEmpty then
    printLines Dialogue.farewell
  else
    let reply := Dialogue.respond s line
    printLines reply.output
    match reply.session with
    | some s => dialogue s
    | none => pure ()

end LispMachine

/-- Starts the dialogue. -/
def main : IO Unit := do
  LispMachine.printLines LispMachine.Dialogue.banner
  LispMachine.dialogue {}
