import LispMachine.Bytecode.Compiled

/-!
# Sessions

A session keeps the global frame and its names from one program to the next, so that a later program
can use what an earlier one defined. A program that fails, when it is compiled or when it runs,
leaves no definitions behind: the global frame is cut back to the values it had.
-/

namespace LispMachine

/-- The definitions that programs share. -/
structure Session where
  dialect : Dialect := {}
  /-- The global names, the oldest first, one for each value of the global frame. -/
  globals : List String := []
  store : Store := Store.empty.alloc []
  /-- The global frame. -/
  globalFrame : FrameId := 0
  /-- How many steps a program may take. -/
  stepLimit : Nat := defaultStepLimit
deriving Repr

namespace Session

/-- The environment that programs run in. -/
def env (s : Session) : Environment := [s.globalFrame]

/-- The values of the global frame, the oldest first. -/
def values (s : Session) : Frame := s.store.contents s.globalFrame

/-- Compiles a source against the global names, and does not run it. -/
def compile (s : Session) (source : String) : Except Error Compiled :=
  LispMachine.compile s.dialect s.globals source

/-- Compiles a source and runs it. -/
def eval (s : Session) (source : String) : Except Error (Option Value) × Session :=
  match s.compile source with
  | .error e => (.error e, s)
  | .ok compiled =>
    let committed := s.values.length
    match (Machine.start compiled.code s.env s.store).runWithLimit s.stepLimit with
    | (.ok result, m) => (.ok result, { s with globals := compiled.globals, store := m.store })
    | (.error e, m) =>
      (.error (.runtime e), { s with store := m.store.truncate s.globalFrame committed })

/-- A machine about to run a source over a copy of the global frame. What it defines does not reach
the session. -/
def machine (s : Session) (source : String) : Except Error Machine :=
  match s.compile source with
  | .error e => .error e
  | .ok compiled => .ok (.start compiled.code [s.store.size] (s.store.alloc s.values))

/-- The value of a global name; the newest definition wins. -/
def lookup (s : Session) (name : String) : Option Value :=
  (lastIndex? name s.globals).bind (s.store.get? s.globalFrame)

/-- Every global name once, with its value, in the order of the names. -/
def bindings (s : Session) : List (String × Value) :=
  let visible := s.globals.eraseDups.filterMap fun name => (s.lookup name).map (name, ·)
  visible.mergeSort fun a b => decide (a.1 ≤ b.1)

end Session

end LispMachine
