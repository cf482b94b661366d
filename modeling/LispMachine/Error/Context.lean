/-!
# The context of an error

An error message shows the piece of the source around the place it speaks of: at most 100
characters, of which at most 20 stand before that place, all on one line. Dots in brackets stand for
what is left out at either side.
-/

namespace LispMachine.Context

/-- The longest piece of a source that an error message shows, in characters. -/
def width : Nat := 100

/-- The most characters shown before the place of an error. -/
def lead : Nat := 20

/-- How many characters start before a byte offset, the first of them at `start`. -/
def charsBefore (offset start : Nat) : List Char → Nat
  | [] => 0
  | c :: rest => if start < offset then charsBefore offset (start + c.utf8Size) rest + 1 else 0

/-- The first character of the shown piece, counted from the front of the source. -/
def start (source : List Char) (offset : Nat) : Nat := charsBefore offset 0 source - lead

/-- The shown piece of a source, as it stands there. -/
def piece (source : List Char) (offset : Nat) : List Char :=
  (source.drop (start source offset)).take width

/-- Text on one line: line feeds are written as `\n`, and carriage returns left out. -/
def onOneLine (cs : List Char) : List Char :=
  cs.flatMap fun c => if c = '\n' then ['\\', 'n'] else if c = '\r' then [] else [c]

/-- What stands for the part of a source that is left out. -/
def omission : List Char := "[...]".toList

/-- The piece of a source that is shown around a byte offset, on one line and with what is left out
marked. -/
def line (source : List Char) (offset : Nat) : List Char :=
  (if 0 < start source offset then omission else []) ++ onOneLine (piece source offset) ++
    (if start source offset + (piece source offset).length < source.length then omission else [])

end LispMachine.Context
