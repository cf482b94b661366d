/-!
# Numbers of the machine

Numbers are 64-bit signed integers. Arithmetic never wraps: an operation computes over the integers
and keeps its result only when it fits, so every law of a number operation is a law of integers
under a range check.
-/

namespace LispMachine

/-- A number of the machine. -/
abbrev Number := Int64

namespace Number

/-- The largest number. -/
def greatest : Int := 9223372036854775807

/-- The smallest number. -/
def least : Int := -9223372036854775808

/-- An integer as a number, when it fits in 64 bits. -/
def ofInt? (i : Int) : Option Number :=
  if least ≤ i ∧ i ≤ greatest then some (Int64.ofInt i) else none

/-- A truth value as a number: `1` or `0`. -/
def ofBool (b : Bool) : Number := if b then 1 else 0

/-- The sum, when it fits. -/
def add? (a b : Number) : Option Number := ofInt? (a.toInt + b.toInt)

/-- The difference, when it fits. -/
def sub? (a b : Number) : Option Number := ofInt? (a.toInt - b.toInt)

/-- The product, when it fits. -/
def mul? (a b : Number) : Option Number := ofInt? (a.toInt * b.toInt)

/-- The quotient rounded toward zero, when it fits; the divisor is not zero. -/
def div? (a b : Number) : Option Number := ofInt? (a.toInt.tdiv b.toInt)

/-- The decimal digits of a number, with a minus sign in front of a negative one. -/
def text (n : Number) : String := n.toInt.repr

/-- An index as a number. Indexes beyond the largest number, which no list in memory reaches, are
clipped to it. -/
def ofIndex (i : Nat) : Number := (ofInt? i).getD (Int64.ofInt greatest)

/-- The value of a run of decimal digits. -/
def digitsValue (digits : List Char) : Nat :=
  digits.foldl (fun n c => 10 * n + (c.toNat - '0'.toNat)) 0

/-- A run of decimal digits as a number, when its value fits. -/
def ofDigits? (digits : List Char) : Option Number := ofInt? (digitsValue digits)

end Number

end LispMachine
