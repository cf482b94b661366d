import LispMachine.Machine.Trace
import LispMachine.Machine.Driving
import LispMachine.Session.Dialogue
import LispMachine.Main
import LispMachine.Proofs.Meaning
import LispMachine.Proofs.Nesting
import LispMachine.Proofs.Scoping
import LispMachine.Proofs.Image
import LispMachine.Proofs.Stage
import LispMachine.Proofs.Primitive
import LispMachine.Proofs.Outcomes
import LispMachine.Proofs.Simulation
import LispMachine.Proofs.Programs
import LispMachine.Proofs.Reading
import LispMachine.Proofs.Agreement
import LispMachine.Proofs.History
import LispMachine.Proofs.Correctness
import LispMachine.Proofs.Rollback
import LispMachine.Proofs.Alignment
import LispMachine.Proofs.Erasure
import LispMachine.Proofs.Marks
import LispMachine.Proofs.Safety
import LispMachine.Proofs.Grammar
import LispMachine.Proofs.Bare
import LispMachine.Proofs.Written
import LispMachine.Proofs.Parsed
import LispMachine.Proofs.Acceptance
import LispMachine.Proofs.Continuation
import LispMachine.Proofs.Increments
import LispMachine.Proofs.Alike
import LispMachine.Proofs.Pairing
import LispMachine.Proofs.Lockstep
import LispMachine.Proofs.Parallel
import LispMachine.Proofs.Settled
import LispMachine.Proofs.Preview
import LispMachine.Proofs.Stability
import LispMachine.Proofs.Bracketing
import LispMachine.Proofs.Assignment
import LispMachine.Proofs.Balance
import LispMachine.Proofs.Stepping
import LispMachine.Proofs.Driving
import LispMachine.Proofs.Origins
import LispMachine.Proofs.Lookahead
import LispMachine.Proofs.Mirror
import LispMachine.Proofs.Layout
import LispMachine.Proofs.Identifiers
import LispMachine.Proofs.Renaming
import LispMachine.Proofs.Equivariance
import LispMachine.Proofs.Tracing
import LispMachine.Proofs.Quasiquote
import LispMachine.Proofs.Literals
import LispMachine.Proofs.Limits
import LispMachine.Proofs.Tokenization
import LispMachine.Proofs.Rendering
import LispMachine.Proofs.Peeking
import LispMachine.Proofs.Comments
import LispMachine.Proofs.Bindings
import LispMachine.Proofs.Blocks
import LispMachine.Proofs.Placement
import LispMachine.Proofs.Provenance
import LispMachine.Proofs.Display
import LispMachine.Proofs.Readback
import LispMachine.Proofs.Excerpt
import LispMachine.Proofs.Addressing
import LispMachine.Proofs.Sameness
import LispMachine.Proofs.Worklist
import LispMachine.Proofs.Operands
