import Pseudocode.Bytecode.Chunk
import Pseudocode.Machine.OperandStack
import Pseudocode.Machine.Operation
/-!
# Running a chunk

The machine executes one instruction after the other, from the first byte of the code up to a return
or an error. There are no jumps, so a run ends within as many turns as there are bytes.

* `offset_lt_of_turn`: a turn that goes on moves forward inside the code;
* `run_eq`: a run is its first turn and what follows.
-/
namespace Pseudocode

structure MachineLimits where
  /-- How many values the stack may hold. -/
  stack : Nat
  /-- How many instructions a run may start; `none` if any number. -/
  steps : Option Nat
  deriving DecidableEq, Repr

def MachineLimits.standard : MachineLimits := ⟨10000, none⟩

/-- The index that the load of a constant at `offset` carries, if its bytes are there
(`read_constant`). -/
def Chunk.loadIndex? (c : Chunk) (offset : Nat) : Opcode → Option Nat
  | .constant => (c.code[offset + 1]?).map UInt8.toNat
  | _ => do
    let low ← c.code[offset + 1]?
    let middle ← c.code[offset + 2]?
    let high ← c.code[offset + 3]?
    return low.toNat + 256 * middle.toNat + 65536 * high.toNat

/-- What instructions work on. -/
structure Memory where
  stack : OperandStack
  heap : Heap
  deriving DecidableEq, Repr

/-- What an instruction does: it goes on, returns a value or fails, and leaves the memory. What a
failing instruction took from the stack stays taken. -/
abbrev Effect := Except RunFault (Option Value) × Memory

namespace Memory

def push (m : Memory) (v : Value) : Effect :=
  match m.stack.push v with
  | .ok stack => (.ok none, { m with stack })
  | .error f => (.error f, m)

/-- Pops a value for what follows. -/
def pop (m : Memory) (next : Value → Memory → Effect) : Effect :=
  match m.stack.pop with
  | .ok (v, stack) => next v { m with stack }
  | .error f => (.error f, m)

/-- Pushes a result, or fails. -/
def finish (m : Memory) (result : Except RunFault Value) : Effect :=
  match result with
  | .ok v => m.push v
  | .error f => (.error f, m)

/-- An operation on the value on top. -/
def unary (m : Memory) (f : Value → Except RunFault Value) : Effect :=
  m.pop fun a m => m.finish (f a)

/-- An operation on two values. The right operand is on top; if it is the only value it is lost. -/
def binary (m : Memory) (f : Value → Value → Except RunFault Value) : Effect :=
  m.pop fun b m => m.pop fun a m => m.finish (f a b)

/-- An operation on two truth values. The right operand is checked before the left one is popped. -/
def logical (m : Memory) (op : Opcode) (f : Bool → Bool → Bool) : Effect :=
  m.pop fun b m =>
    match truth op b with
    | .error e => (.error e, m)
    | .ok b => m.unary fun a => (truth op a).map fun a => .boolean (f a b)

def concat (m : Memory) : Effect :=
  m.pop fun b m => m.pop fun a m =>
    match concatenation m.heap a b with
    | .error e => (.error e, m)
    | .ok (v, heap) => { m with heap }.push v

/-- Loads the constant of the instruction at `offset`. -/
def load (m : Memory) (c : Chunk) (offset : Nat) (op : Opcode) : Effect :=
  match c.loadIndex? offset op with
  | none => (.error (.truncated op), m)
  | some index =>
    match c.constants[index]? with
    | none => (.error (.constantIndex index), m)
    | some v => m.push v

/-- Executes the operation at `offset` (`Vm::step`). -/
def execute (m : Memory) (c : Chunk) (offset : Nat) : Opcode → Effect
  | .constant => m.load c offset .constant
  | .constantLong => m.load c offset .constantLong
  | .pushTrue => m.push (.boolean true)
  | .pushFalse => m.push (.boolean false)
  | .add => m.binary (arithmetic .add)
  | .subtract => m.binary (arithmetic .subtract)
  | .multiply => m.binary (arithmetic .multiply)
  | .divide => m.binary (arithmetic .divide)
  | .quotient => m.binary (arithmetic .quotient)
  | .remainder => m.binary (arithmetic .remainder)
  | .negate => m.unary negation
  | .not => m.unary fun a => (truth .not a).map fun a => .boolean !a
  | .and => m.logical .and (· && ·)
  | .or => m.logical .or (· || ·)
  | .concat => m.concat
  | .equal => m.binary fun a b => .ok (.boolean (a.isEqual m.heap b))
  | .notEqual => m.binary fun a b => .ok (.boolean !(a.isEqual m.heap b))
  | .less => m.binary (comparison .less)
  | .lessEqual => m.binary (comparison .lessEqual)
  | .greater => m.binary (comparison .greater)
  | .greaterEqual => m.binary (comparison .greaterEqual)
  | .finish => m.pop fun v m => (.ok (some v), m)

end Memory

/-! ## Turns -/

structure RunState where
  offset : Nat
  steps : Nat
  memory : Memory
  deriving DecidableEq, Repr

inductive Turn where
  | next (s : RunState)
  | halt (result : Except RunError Value) (s : RunState)

/-- Executes the instruction with the given byte at `offset`, and gives the number of its bytes too.
-/
def Memory.step (m : Memory) (c : Chunk) (offset : Nat) (byte : UInt8) : Effect × Nat :=
  match Opcode.ofByte? byte with
  | none => ((.error (.unknownOpcode byte), m), 1)
  | some op => (m.execute c offset op, 1 + op.operandSize)

/-- Does the limit forbid a run to start this many instructions (`check_limits`)? -/
def MachineLimits.exceeded? (limits : MachineLimits) (steps : Nat) : Option RunFault :=
  limits.steps.bind fun limit => if limit < steps then some (.stepLimit limit) else none

/-- One turn: the instruction at the offset of the state is started, unless the code ends there or
the limit of steps is reached. An error has the line of the instruction, or of the last byte. -/
def RunState.turn (limits : MachineLimits) (c : Chunk) (s : RunState) : Turn :=
  match c.code[s.offset]? with
  | none => .halt (.error ⟨.endOfCode, c.lineAt? (s.offset - 1)⟩) s
  | some byte =>
    let steps := s.steps + 1
    match limits.exceeded? steps with
    | some f => .halt (.error ⟨f, c.lineAt? s.offset⟩) { s with steps }
    | none =>
      match s.memory.step c s.offset byte with
      | ((.ok none, memory), width) => .next ⟨s.offset + width, steps, memory⟩
      | ((.ok (some v), memory), _) => .halt (.ok v) ⟨s.offset, steps, memory⟩
      | ((.error f, memory), _) => .halt (.error ⟨f, c.lineAt? s.offset⟩) ⟨s.offset, steps, memory⟩

theorem Memory.step_width_pos (m : Memory) (c : Chunk) (offset : Nat) (byte : UInt8) :
    0 < (m.step c offset byte).2 := by
  unfold Memory.step
  split <;> simp only [] <;> omega

/-- A turn that goes on moves forward inside the code. -/
theorem offset_lt_of_turn {limits : MachineLimits} {c : Chunk} {s t : RunState}
    (h : s.turn limits c = .next t) : s.offset < c.size ∧ s.offset < t.offset := by
  unfold RunState.turn at h
  split at h
  · cases h
  · rename_i byte found
    have inside : s.offset < c.size := (Array.getElem?_eq_some_iff.1 found).1
    dsimp only at h
    split at h
    · cases h
    · have forward := s.memory.step_width_pos c s.offset byte
      split at h
      · rename_i memory width result
        rw [result] at forward
        cases h
        exact ⟨inside, by simp only at forward ⊢; omega⟩
      · cases h
      · cases h

/-! ## Runs -/

/-- Takes turns until the run is over, and gives the result and the state in which it is over
(`Vm::execute`). -/
def RunState.run (limits : MachineLimits) (c : Chunk) (s : RunState) :
    Except RunError Value × RunState :=
  match _h : s.turn limits c with
  | .halt result t => (result, t)
  | .next t => t.run limits c
termination_by c.size - s.offset
decreasing_by
  have := offset_lt_of_turn _h
  omega

/-- The states at which the turns of a run begin. -/
def RunState.visited (limits : MachineLimits) (c : Chunk) (s : RunState) : List RunState :=
  match _h : s.turn limits c with
  | .halt _ _ => [s]
  | .next t => s :: t.visited limits c
termination_by c.size - s.offset
decreasing_by
  have := offset_lt_of_turn _h
  omega

/-- A run is its first turn and what follows. -/
theorem RunState.run_eq (limits : MachineLimits) (c : Chunk) (s : RunState) :
    s.run limits c = match s.turn limits c with
      | .halt result t => (result, t)
      | .next t => t.run limits c := by
  rw [RunState.run]
  split <;> rename_i h <;> simp [h]

/-- The state at the start of the code, with nothing on the stack. -/
def RunState.start (limits : MachineLimits) (heap : Heap) : RunState :=
  ⟨0, 0, ⟨.empty limits.stack, heap⟩⟩

def Chunk.run (c : Chunk) (limits : MachineLimits) (heap : Heap) :
    Except RunError Value × RunState :=
  (RunState.start limits heap).run limits c

end Pseudocode
