import Pseudocode.Compilation
import Pseudocode.Machine.Run
/-!
# Sessions

A session runs one chunk after the other on one heap, so strings interned by one source are there
for the next. The stack of the last run stays to be looked at; a source that does not compile leaves
it alone.
-/
namespace Pseudocode

/-- How the last run of a session went. -/
inductive Status where
  | ready | succeeded | failed
  deriving DecidableEq, Repr

/-- A machine with what its runs leave. -/
structure Session where
  limits : MachineLimits
  heap : Heap
  stack : OperandStack
  status : Status
  deriving DecidableEq, Repr

/-- Why a source has no value. -/
inductive EvalError where
  | compile (e : CompileError)
  | run (e : RunError)
  deriving DecidableEq, Repr

namespace EvalError

/-- The line to which the error belongs, if it is known. -/
def line : EvalError → Option UInt32
  | compile e => some e.line
  | run e => e.line

def message : EvalError → String
  | compile e => "compile error: " ++ e.message
  | run e => "runtime error: " ++ e.message

end EvalError

namespace Session

/-- A session that has run nothing, on the given heap (`Vm::with_config`). -/
def start (limits : MachineLimits) (heap : Heap) : Session :=
  ⟨limits, heap, .empty limits.stack, .ready⟩

def new : Session := start .standard .new

/-- Runs a chunk whose strings are on the heap of the session (`Vm::run`). -/
def run (s : Session) (c : Chunk) : Except RunError Value × Session :=
  let (result, last) := c.run s.limits s.heap
  let status := match result with
    | .ok _ => .succeeded
    | .error _ => .failed
  (result, ⟨s.limits, last.memory.heap, last.memory.stack, status⟩)

/-- Compiles a source and runs its chunk (`Vm::interpret`). -/
def eval (s : Session) (source : String) : Except EvalError Value × Session :=
  match compileSource source s.heap with
  | (.error e, heap) => (.error (.compile e), { s with heap, status := .failed })
  | (.ok c, heap) =>
    let (result, s) := { s with heap }.run c
    (result.mapError .run, s)

end Session

end Pseudocode
