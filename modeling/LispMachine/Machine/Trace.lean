import LispMachine.Machine.Driving

/-!
# Traces

A trace log is an observer that keeps every step of a run as a node. A node links to the step before
it in the same activation, that is, in the same call of a function or the same branch of an `if`, so
that the steps of one activation can be followed without those of the activations it started.

The log keeps, for each depth of the dump, the newest node of the activation that is open there. A step
at some depth means that everything deeper has ended.
-/

namespace LispMachine

/-- One step of a run. -/
structure TraceNode where
  step : Nat
  opcode : Opcode
  origin : Option Span
  /-- The top of the stack behind the instruction. -/
  result : Option Value
  dumpDepth : Nat
  /-- The index of the step before it in the same activation. -/
  history : Option Nat
deriving Repr

/-- The node that an event leaves, with a link to the step before it in its activation. -/
def StepEvent.node (e : StepEvent) (history : Option Nat) : TraceNode :=
  { step := e.step, opcode := e.opcode, origin := e.origin, result := e.stack.head?,
    dumpDepth := e.dumpDepth, history }

/-- Every step that was observed. -/
structure TraceLog where
  nodes : Array TraceNode := #[]
  /-- The newest node at each depth of the dump. -/
  frontier : Array (Option Nat) := #[]
deriving Repr

namespace TraceLog

/-- The number of nodes. -/
def size (log : TraceLog) : Nat := log.nodes.size

/-- Whether nothing was observed. -/
def isEmpty (log : TraceLog) : Bool := log.nodes.isEmpty

/-- The index of the newest node. -/
def last? (log : TraceLog) : Option Nat := if log.size = 0 then none else some (log.size - 1)

/-- The frontier up to a depth. The activations that are deeper have ended. -/
def upTo (depth : Nat) (frontier : Array (Option Nat)) : Array (Option Nat) :=
  (frontier.shrink (depth + 1)).rightpad (depth + 1) none

/-- Adds a step. -/
def record (log : TraceLog) (e : StepEvent) : TraceLog :=
  let index := log.nodes.size
  let frontier := upTo e.dumpDepth log.frontier
  { nodes := log.nodes.push (e.node frontier[e.dumpDepth]?.join)
    frontier := frontier.setIfInBounds e.dumpDepth (some index) }

/-- A node and its history, the newest first. Links go to older nodes only, so the chain is no longer
than the index of its first node. -/
def historyFrom (log : TraceLog) : Nat → Nat → List (Nat × TraceNode)
  | 0, _ => []
  | fuel + 1, index =>
    match log.nodes[index]? with
    | none => []
    | some node =>
      (index, node) ::
        match node.history with
        | none => []
        | some older => historyFrom log fuel older

/-- A node and its history, the newest first. -/
def history (log : TraceLog) (index : Nat) : List (Nat × TraceNode) :=
  log.historyFrom (index + 1) index

end TraceLog

/-- Runs a machine with a limit on its steps and logs every step. -/
def Machine.runTraced (m : Machine) (limit : Nat) : RunResult × TraceLog × Machine :=
  m.runWatched TraceLog.record {} limit

end LispMachine
