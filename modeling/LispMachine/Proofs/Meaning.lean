import LispMachine.Form
import LispMachine.Value.Depth
import LispMachine.Machine.Store

/-!
# The meaning of programs

What a program computes, said on its syntax tree and without a machine. Expressions evaluate to
objects, in a chain of frames that stand in a heap. A chain knows the names of each of its frames, so
a variable is looked up by its name and not by the address that the tree carries.

* Operands, arguments, initialisers and the items of a template are evaluated from right to left, and
  the function of a call after its arguments.
* A function is its parameters, its body and the chain that it was made in. Frames are shared: a chain
  names them, and what is put into a frame later is seen through every chain that names it.
* The initialisers of a `letrec` are evaluated in a frame that is still empty. It is filled when all of
  them have their values.
* A definition puts its value at the end of the global frame.

Evaluation is by recursion on the tree. Only a call leaves the tree, to evaluate the body of whatever
function it comes to, so fuel bounds how deep calls are nested (`applyWith`). How a function is applied is
a parameter of the evaluator for this reason: what is proved of a tree by recursion holds with any way to
apply functions, and the induction on the fuel is needed once, for `applyWith`.
-/

namespace LispMachine

/-- The names of a frame, and where the frame stands. -/
structure Link where
  names : List String
  frame : FrameId
deriving DecidableEq, Repr

/-- The frames that an expression can see, the innermost first and the global frame last. -/
abbrev Chain := List Link

/-- What an expression evaluates to. -/
inductive Object where
  | number (n : Number)
  | string (text : String)
  | symbol (name : String)
  | list (items : List Object)
  /-- A function, with the chain that it was made in. -/
  | closure (parens : Parens) (params : List String) (body : List Expr) (chain : Chain)

/-- Every frame that was made, each at the place that its name gives. -/
structure Heap where
  frames : Array (List Object)

/-- Why an evaluation has no value. -/
inductive Stop where
  | failed (e : RuntimeError)
  /-- Calls are nested deeper than the fuel allows. -/
  | exhausted
  /-- The tree is none that a source reads as: a name is bound nowhere, or a body is empty. -/
  | senseless

/-- Something that is evaluated in a heap and changes it. -/
abbrev Evaluation := StateT Heap (Except Stop)

namespace Chain

/-- The names of every frame, the innermost first. -/
def names (c : Chain) : List (List String) := c.map Link.names

/-- The frames, the innermost first. -/
def frames (c : Chain) : Environment := c.map Link.frame

/-- Where a name is bound: the innermost frame that has it, and in that frame the last of equal
names. -/
def find? (name : String) : Chain → Option (Address × FrameId)
  | [] => none
  | link :: outer =>
    match lastIndex? name link.names with
    | some offset => some (⟨0, offset⟩, link.frame)
    | none => (find? name outer).map fun (a, f) => ({ a with depth := a.depth + 1 }, f)

end Chain

namespace Heap

/-- A heap with one frame, which is empty. -/
def fresh : Heap := ⟨#[[]]⟩

/-- The number of frames; also the name of the next one. -/
def size (h : Heap) : Nat := h.frames.size

/-- The objects in a frame. -/
def contents (h : Heap) (f : FrameId) : List Object := h.frames.getD f []

/-- Makes a new frame. -/
def alloc (h : Heap) (objects : List Object) : Heap := ⟨h.frames.push objects⟩

/-- Gives a frame new contents. -/
def fill (h : Heap) (f : FrameId) (objects : List Object) : Heap :=
  ⟨h.frames.setIfInBounds f objects⟩

/-- Puts an object at the end of a frame. -/
def append (h : Heap) (f : FrameId) (o : Object) : Heap := ⟨h.frames.modify f (· ++ [o])⟩

/-- Cuts a frame down to its first objects. -/
def truncate (h : Heap) (f : FrameId) (count : Nat) : Heap := ⟨h.frames.modify f (·.take count)⟩

end Heap

namespace Object

/-- The empty list. -/
abbrev nil : Object := .list []

/-- A truth value, as one of the numbers `1` and `0`. -/
def ofBool (b : Bool) : Object := .number (.ofBool b)

/-- Whether an object counts as true: all but `0` and the empty list do. -/
def isTruthy : Object → Bool
  | .number n => n != 0
  | .list items => !items.isEmpty
  | _ => true

/-- What errors call an object. -/
def kind : Object → ValueKind
  | .number _ => .number
  | .string _ => .string
  | .symbol _ => .symbol
  | .list [] => .emptyList
  | .list (_ :: _) => .list
  | .closure .. => .closure

mutual
/-- How deep lists are nested in an object. -/
def depth : Object → Nat
  | .list items => depths items + 1
  | _ => 0
/-- The depth of the deepest of some objects. -/
def depths : List Object → Nat
  | [] => 0
  | o :: os => max o.depth (depths os)
end

/-- The object of a literal. -/
def ofLiteral : Literal → Object
  | .number n => .number n
  | .boolean b => .ofBool b
  | .string text => .string text

mutual
/-- The object that a datum stands for. -/
def ofDatum : Datum → Object
  | .literal l => .ofLiteral l
  | .word w => .symbol w.name
  | .list items => .list (ofData items)
  | .marked mark datum => .list [.symbol mark.name, ofDatum datum]
/-- The objects that data stand for. -/
def ofData : List Datum → List Object
  | [] => []
  | d :: ds => ofDatum d :: ofData ds
end

/-- Puts an object before the items of a list, unless the list would be nested too deep. -/
def prepend (head : Object) (tail : List Object) : Except RuntimeError (List Object) :=
  if head.depth < maxDataDepth then .ok (head :: tail) else .error (.dataTooDeep .cons maxDataDepth)

/-- The items of a list that an instruction asks for. -/
def asList (op : Opcode) : Object → Except RuntimeError (List Object)
  | .list items => .ok items
  | o => .error (.typeMismatch op .list o.kind)

/-- The number that an instruction asks for. -/
def asNumber (op : Opcode) : Object → Except RuntimeError Number
  | .number n => .ok n
  | o => .error (.typeMismatch op .number o.kind)

end Object

/-! ## Primitives -/

/-- What a primitive of one operand gives. -/
def UnaryOp.apply (op : UnaryOp) (operand : Object) : Except RuntimeError Object :=
  match op with
  | .consp => .ok (.ofBool (operand.kind = .list))
  | .car => do
    match ← operand.asList .car with
    | head :: _ => .ok head
    | [] => .error (.typeMismatch .car .nonEmptyList .emptyList)
  | .cdr => do
    match ← operand.asList .cdr with
    | _ :: tail => .ok (.list tail)
    | [] => .error (.typeMismatch .cdr .nonEmptyList .emptyList)

/-- A number that an operation gives if it fits. -/
def Number.orOverflow (op : Opcode) : Option Number → Except RuntimeError Number
  | some n => .ok n
  | none => .error (.overflow op)

/-- What an operator gives for two numbers. -/
def Operator.compute (o : Operator) (a b : Number) : Except RuntimeError Number :=
  match o with
  | .add => Number.orOverflow .add (Number.add? a b)
  | .sub => Number.orOverflow .sub (Number.sub? a b)
  | .mul => Number.orOverflow .mul (Number.mul? a b)
  | .div => if b = 0 then .error .divisionByZero else Number.orOverflow .div (Number.div? a b)
  | .eq => .ok (.ofBool (a == b))
  | .ne => .ok (.ofBool (a != b))
  | .lt => .ok (.ofBool (decide (a < b)))
  | .le => .ok (.ofBool (decide (a ≤ b)))
  | .gt => .ok (.ofBool (decide (b < a)))
  | .ge => .ok (.ofBool (decide (b ≤ a)))

/-- What a primitive on two numbers gives. The left operand is the first to be looked at. -/
def Object.numeric (op : Opcode) (f : Number → Number → Except RuntimeError Number)
    (left right : Object) : Except RuntimeError Object := do
  let a ← left.asNumber op
  let b ← right.asNumber op
  return .number (← f a b)

/-- What a primitive of two operands gives. -/
def BinaryOp.apply (op : BinaryOp) (left right : Object) : Except RuntimeError Object :=
  match op with
  | .cons => do return .list (← left.prepend (← right.asList .cons))
  | .operator o => Object.numeric (BinaryOp.operator o).opcode o.compute left right
  | .and => Object.numeric .and (fun a b => .ok (.ofBool (a != 0 && b != 0))) left right
  | .or => Object.numeric .or (fun a b => .ok (.ofBool (a != 0 || b != 0))) left right

namespace Template

mutual
/-- A template without holes, as the datum it is. -/
def datum? : Template → Option Datum
  | .hole _ => none
  | .datum d => some d
  | .list _ items => (data? items).map .list
/-- Templates without holes, as data. -/
def data? : List Template → Option (List Datum)
  | [] => some []
  | t :: ts =>
    match t.datum?, data? ts with
    | some d, some ds => some (d :: ds)
    | _, _ => none
end

end Template

/-! ## Evaluation -/

namespace Evaluation

/-- What may fail, as an evaluation that leaves the heap alone. -/
def lift {α : Type} : Except RuntimeError α → Evaluation α
  | .ok a => pure a
  | .error e => throw (.failed e)

/-- Makes a frame. -/
def alloc (objects : List Object) : Evaluation FrameId := fun h => .ok (h.size, h.alloc objects)

/-- Fills a frame. -/
def fill (f : FrameId) (objects : List Object) : Evaluation Unit := fun h => .ok ((), h.fill f objects)

/-- Adds an object to a frame. -/
def append (f : FrameId) (o : Object) : Evaluation Unit := fun h => .ok ((), h.append f o)

/-- The object that a name stands for. Offsets are numbers of the machine: one beyond the largest
number, which no frame in memory has, is read as the largest. -/
def lookup (chain : Chain) (name : String) : Evaluation Object := fun h =>
  match chain.find? name with
  | none => .error .senseless
  | some (address, f) =>
    let offset := min address.offset Number.greatest.toNat
    match (h.contents f)[offset]? with
    | some o => .ok (o, h)
    | none => .error (.failed (.offsetOutOfRange address.depth offset (h.contents f).length))

end Evaluation

/-- How a function is applied: what it gives for its parameters, its body, its chain and its
arguments. -/
abbrev Application := List String → List Expr → Chain → List Object → Evaluation Object

section
variable (apply : Application)

/-- Calls an object, which has to be a function. -/
def Object.call (args : List Object) : Object → Evaluation Object
  | .closure _ params body chain => apply params body chain args
  | o => Evaluation.lift (.error (.typeMismatch .ap .closure o.kind))

mutual
/-- The object of an expression in a chain. -/
def Expr.eval (chain : Chain) : Expr → Evaluation Object
  | .literal _ l => pure (.ofLiteral l)
  | .null _ => pure .nil
  | .var _ name _ => Evaluation.lookup chain name
  | .quote _ datum | .quoteForm _ datum => pure (.ofDatum datum)
  | .quasi _ template => template.eval chain
  | .unary _ op operand => do
    let o ← operand.eval chain
    Evaluation.lift (op.apply o)
  | .binary _ op left right => do
    let b ← right.eval chain
    let a ← left.eval chain
    Evaluation.lift (op.apply a b)
  | .ifElse _ condition consequent alternative => do
    let c ← condition.eval chain
    if c.isTruthy then consequent.eval chain else alternative.eval chain
  | .lambda parens params body => pure (.closure parens params body chain)
  | .letIn _ bindings body => do
    let objects ← evalInits chain bindings
    let f ← Evaluation.alloc objects
    evalSequence (⟨bindings.map (·.1), f⟩ :: chain) body
  | .letrec _ bindings body => do
    let f ← Evaluation.alloc []
    let inner := ⟨bindings.map (·.1), f⟩ :: chain
    let objects ← evalInits inner bindings
    Evaluation.fill f objects
    evalSequence inner body
  | .sequence _ forms => evalSequence chain forms
  | .app _ function args => do
    let objects ← evalArgs chain args
    let o ← function.eval chain
    o.call apply objects
/-- The objects of arguments, the last evaluated first. -/
def evalArgs (chain : Chain) : List Expr → Evaluation (List Object)
  | [] => pure []
  | e :: es => do
    let objects ← evalArgs chain es
    let o ← e.eval chain
    Evaluation.lift (o.prepend objects)
/-- The objects of initialisers, the last evaluated first. -/
def evalInits (chain : Chain) : List (String × Expr) → Evaluation (List Object)
  | [] => pure []
  | (_, e) :: rest => do
    let objects ← evalInits chain rest
    let o ← e.eval chain
    Evaluation.lift (o.prepend objects)
/-- The object of the last of some expressions, which are evaluated one after the other. -/
def evalSequence (chain : Chain) : List Expr → Evaluation Object
  | [] => throw .senseless
  | [e] => e.eval chain
  | e :: es => do
    let _ ← e.eval chain
    evalSequence chain es
/-- The object of a template. A part without holes is the datum that it is. -/
def Template.eval (chain : Chain) : Template → Evaluation Object
  | .hole e => e.eval chain
  | .datum d => pure (.ofDatum d)
  | .list _ items =>
    match Template.data? items with
    | some ds => pure (.list (Object.ofData ds))
    -- only a list with a hole in it is built, and only then can it turn out to be too deep
    | none => do
      let objects ← evalTemplates chain items
      return .list objects
/-- The objects of the items of a template, the last evaluated first. -/
def evalTemplates (chain : Chain) : List Template → Evaluation (List Object)
  | [] => pure []
  | t :: ts => do
    let objects ← evalTemplates chain ts
    let o ← t.eval chain
    Evaluation.lift (o.prepend objects)
end

/-- The object of a top-level form, given the global frame and its names: that of the expression, or
the one that is defined. A definition binds its name before its object is evaluated. -/
def TopForm.object (global : FrameId) (names : List String) : TopForm → Evaluation Object
  | .value _ e => e.eval apply [⟨names, global⟩]
  | .defineVariable _ name e => e.eval apply [⟨names ++ [name], global⟩]
  | .defineFunction parens name params body =>
    pure (.closure parens params body [⟨names ++ [name], global⟩])

/-- What a top-level form evaluates to. A definition puts its object into the global frame, and
evaluates to nothing. -/
def TopForm.eval (global : FrameId) (names : List String) (form : TopForm) :
    Evaluation (Option Object) := do
  let o ← form.object apply global names
  match form.defined? with
  | none => return some o
  | some _ =>
    Evaluation.append global o
    return none

/-- What a program evaluates to: what its last form does. -/
def Program.evalWith (global : FrameId) : List String → Program → Evaluation (Option Object)
  | _, [] => pure none
  | names, [form] => form.eval apply global names
  | names, form :: next :: rest => do
    let _ ← form.eval apply global names
    Program.evalWith global (names ++ form.defined?.toList) (next :: rest)

end

/-- Applies a function with fuel: in a new frame that holds the arguments, inside of the chain that the
function was made in. -/
def applyWith : Nat → Application
  | 0 => fun _ _ _ _ => throw .exhausted
  | fuel + 1 => fun params body chain args => do
    let f ← Evaluation.alloc args
    evalSequence (applyWith fuel) (⟨params, f⟩ :: chain) body

/-- What a program evaluates to with calls nested no deeper than the fuel. -/
def Program.eval (fuel : Nat) (global : FrameId) (names : List String) (p : Program) :
    Evaluation (Option Object) :=
  p.evalWith (applyWith fuel) global names

end LispMachine
