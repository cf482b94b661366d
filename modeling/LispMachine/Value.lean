import LispMachine.Span
import LispMachine.Number
import LispMachine.Opcode
import LispMachine.Error

/-!
# Values

One type for code and data: the same values fill the four registers of the machine, and a code block
is a list whose items are instructions with their operands between them.

A closure names the frames of its environment and does not hold them: the frames stand in a store
(`LispMachine.Store`), because a frame can be filled after a closure has captured it. So a value is
a finite tree, and two closures are the same when they have the same code and the same frames.
-/

namespace LispMachine

/-- The name of a frame in the store. -/
abbrev FrameId := Nat

/-- The frames that code can reach, the innermost first and the global frame last. -/
abbrev Environment := List FrameId

/-- Code and data of the machine. -/
inductive Value where
  | number (n : Number)
  /-- A string literal. -/
  | string (text : String)
  /-- A quoted name. -/
  | symbol (name : String)
  /-- An instruction, and the form that it was emitted for. -/
  | op (code : Opcode) (origin : Option Span)
  | list (items : List Value)
  /-- A code block with the environment that it was made in. -/
  | closure (code : List Value) (env : Environment)
deriving Repr, Inhabited

/-- A code block: instructions with their operands between them. -/
abbrev Code := List Value

namespace Value

/-- The empty list. -/
abbrev nil : Value := .list []

/-- A truth value: there is no type of truth values, and the numbers `1` and `0` stand for them. -/
def ofBool (b : Bool) : Value := .number (.ofBool b)

/-- The number that a value is. -/
def number? : Value → Option Number
  | .number n => some n
  | _ => none

/-- The instruction that a value is. -/
def opcode? : Value → Option Opcode
  | .op code _ => some code
  | _ => none

/-- The items of a list. -/
def items? : Value → Option (List Value)
  | .list items => some items
  | _ => none

/-- Where an instruction was emitted from. -/
def origin? : Value → Option Span
  | .op _ origin => origin
  | _ => none

/-- Whether a value is the empty list. -/
def isNil : Value → Bool
  | .list [] => true
  | _ => false

/-- Whether a value counts as true: all but `0` and the empty list do. -/
def isTruthy : Value → Bool
  | .number n => n != 0
  | .list items => !items.isEmpty
  | _ => true

/-- What errors call a value. -/
def kind : Value → ValueKind
  | .number _ => .number
  | .string _ => .string
  | .symbol _ => .symbol
  | .op _ _ => .instruction
  | .list [] => .emptyList
  | .list (_ :: _) => .list
  | .closure _ _ => .closure

/-! ## Equality -/

mutual
/-- Whether two values are the same. Where an instruction comes from makes no difference, and
closures are the same when they share their frames. -/
def same : Value → Value → Bool
  | .number a, .number b => a == b
  | .string a, .string b => a == b
  | .symbol a, .symbol b => a == b
  | .op a _, .op b _ => a == b
  | .list xs, .list ys => sameItems xs ys
  | .closure c e, .closure c' e' => sameItems c c' && e == e'
  | _, _ => false
/-- Whether two lists have the same values in the same order. -/
def sameItems : List Value → List Value → Bool
  | [], [] => true
  | x :: xs, y :: ys => same x y && sameItems xs ys
  | _, _ => false
end

instance : BEq Value := ⟨same⟩

/-! ## Text -/

mutual
/-- How a value is printed: a string in its quotes, and a list in parentheses. -/
def text : Value → String
  | .number n => n.text
  | .string s => "\"" ++ s ++ "\""
  | .symbol name => name
  | .op code _ => code.mnemonic
  | .list items => "(" ++ " ".intercalate (texts items) ++ ")"
  | .closure _ _ => "#<closure>"
/-- The texts of values. -/
def texts : List Value → List String
  | [] => []
  | v :: vs => v.text :: texts vs
end

mutual
/-- How a value is shown to someone who inspects the machine: every value with its kind, and a
closure with its code and the number of its frames. -/
def inspect : Value → String
  | .number n => "Number(" ++ n.text ++ ")"
  | .string s => "String(\"" ++ s ++ "\")"
  | .symbol name => "Symbol(" ++ name ++ ")"
  | .op code _ => code.mnemonic
  | .list items => "List(" ++ ", ".intercalate (inspects items) ++ ")"
  | .closure code env =>
    "Closure(code=List(" ++ ", ".intercalate (inspects code) ++ "), frames=" ++ env.length.repr ++ ")"
/-- The inspected values. -/
def inspects : List Value → List String
  | [] => []
  | v :: vs => v.inspect :: inspects vs
end

@[simp] theorem texts_eq_map (vs : List Value) : texts vs = vs.map text := by
  induction vs with
  | nil => rfl
  | cons v vs ih => simp [texts, ih]

@[simp] theorem inspects_eq_map (vs : List Value) : inspects vs = vs.map inspect := by
  induction vs with
  | nil => rfl
  | cons v vs ih => simp [inspects, ih]

end Value

end LispMachine
