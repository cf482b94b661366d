/-!
# The instruction set

The machine has 28 instructions. Four of them carry operands in the code that follows them: `LD` a
depth and an offset, `LDC` a constant, `LDF` a code block and `SEL` two code blocks.
-/

namespace LispMachine

/-- The name of an instruction. -/
inductive Opcode where
  | nil
  | ld
  | ldc
  | ldf
  | ap
  | rap
  | rtn
  | dum
  | sel
  | join
  | cons
  | car
  | cdr
  | consp
  | pop
  | add
  | sub
  | mul
  | div
  | eq
  | ne
  | lt
  | le
  /-- Higher than, `>`. -/
  | ht
  /-- Higher than or equal, `>=`. -/
  | he
  | or
  | and
  | defun
deriving DecidableEq, Repr

namespace Opcode

/-- Every instruction, in the order of the instruction set. -/
def all : List Opcode :=
  [nil, ld, ldc, ldf, ap, rap, rtn, dum, sel, join, cons, car, cdr, consp, pop, add, sub, mul, div,
    eq, ne, lt, le, ht, he, or, and, defun]

/-- The written name of an instruction. -/
def mnemonic : Opcode → String
  | nil => "NIL"
  | ld => "LD"
  | ldc => "LDC"
  | ldf => "LDF"
  | ap => "AP"
  | rap => "RAP"
  | rtn => "RTN"
  | dum => "DUM"
  | sel => "SEL"
  | join => "JOIN"
  | cons => "CONS"
  | car => "CAR"
  | cdr => "CDR"
  | consp => "CONSP"
  | pop => "POP"
  | add => "ADD"
  | sub => "SUB"
  | mul => "MUL"
  | div => "DIV"
  | eq => "EQ"
  | ne => "NE"
  | lt => "LT"
  | le => "LE"
  | ht => "HT"
  | he => "HE"
  | or => "OR"
  | and => "AND"
  | defun => "DEFUN"

/-- The instruction of a written name. -/
def ofMnemonic? (name : String) : Option Opcode :=
  all.find? fun op => op.mnemonic == name

/-- How many operands follow the instruction in a code block. -/
def operandCount : Opcode → Nat
  | ld | sel => 2
  | ldc | ldf => 1
  | _ => 0

/-- The place of an instruction in the instruction set. -/
def position (op : Opcode) : Nat := all.idxOf op

end Opcode

end LispMachine
