import Pseudocode.Bytecode.Listing
import Pseudocode.Session
/-!
# Traces

What a session reports of its work: each parse, compilation and run, each turn of the machine, and
each time the table of interned strings grows. A trace is read off the values that the work starts
from and ends with; the work itself knows nothing of it.
-/
namespace Pseudocode

/-- Something that is reported. -/
inductive Event where
  /-- A source was parsed to so many nodes. -/
  | parsed (nodes : Nat)
  | compiled (bytes constants : Nat)
  /-- The machine is about to execute the instruction of a listing row. -/
  | turn (row stack : String)
  | finished (steps : Nat) (result : String)
  | failed (steps : Nat) (error : String)
  | freed (objects : Nat)
  /-- The table of interned strings has more slots now. -/
  | resized (capacity live : Nat)
  deriving DecidableEq, Repr

namespace Event

/-- How closely one must look to see the event. -/
inductive Level where
  | debug | trace
  deriving DecidableEq, Repr

def Level.name : Level → String
  | debug => "DEBUG"
  | trace => "TRACE"

def level : Event → Level
  | turn _ _ | resized _ _ => .trace
  | _ => .debug

def message : Event → String
  | parsed _ => "parsed expression"
  | compiled _ _ => "compiled chunk"
  | turn row _ => row
  | finished _ _ => "run finished"
  | failed _ _ => "run failed"
  | freed _ => "freeing heap"
  | resized _ _ => "intern table resized"

/-- The other fields of an event, by name. -/
def fields : Event → List (String × String)
  | parsed nodes => [("nodes", toString nodes)]
  | compiled bytes constants => [("bytes", toString bytes), ("constants", toString constants)]
  | turn _ stack => [("stack", stack)]
  | finished steps result => [("steps", toString steps), ("result", result)]
  | failed steps error => [("steps", toString steps), ("error", error)]
  | freed objects => [("objects", toString objects)]
  | resized capacity live => [("capacity", toString capacity), ("live", toString live)]

end Event

namespace Trace

/-- A table that only grows doubles its slots just when three quarters of them are taken. -/
def growth (before after : Heap) : List Event :=
  let first := before.interned.capacity
  (List.range (after.interned.capacity.log2 - first.log2)).map fun k =>
    .resized (first <<< (k + 1)) ((first <<< k) * 3 / 4)

def clearing (heap : Heap) : List Event := [.freed heap.size]

def parsing : Except ParseError Ast → List Event
  | .ok ast => [.parsed ast.arena.size]
  | .error _ => []

def compiling (before : Heap) : Compiled → List Event
  | (.ok c, after) => growth before after ++ [.compiled c.size c.constants.size]
  | (.error _, after) => growth before after

def compilingSource (source : String) (heap : Heap) : List Event :=
  parsing (parse .standard .standard source) ++ compiling heap (compileSource source heap)

/-- The values of a stack in a row, the first pushed first. -/
def stackText (m : Memory) : String :=
  String.join (m.stack.toList.map fun v => "[ " ++ v.listed m.heap ++ " ]")

/-- A turn that finds an instruction (`trace_cycle`). -/
def turn? (c : Chunk) (s : RunState) : Option Event :=
  if s.offset < c.size then some (.turn (c.row s.memory.heap s.offset) (stackText s.memory))
  else none

def running (s : Session) (c : Chunk) : List Event :=
  let turns := ((RunState.start s.limits s.heap).visited s.limits c).filterMap (turn? c)
  let last := match c.run s.limits s.heap with
    | (.ok v, t) => .finished t.steps (v.listed t.memory.heap)
    | (.error e, t) => .failed t.steps e.message
  turns ++ [last]

def evaluating (s : Session) (source : String) : List Event :=
  compilingSource source s.heap ++
    match compileSource source s.heap with
    | (.ok c, heap) => running { s with heap } c
    | (.error _, _) => []

end Trace

end Pseudocode
