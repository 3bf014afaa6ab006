import Pseudocode.Machine.Fault
/-!
# The operand stack

The values that instructions leave for those behind them. The stack has a limit, which is checked
when a value is pushed.

* `pop_push`: what was pushed is popped.
-/
namespace Pseudocode

structure OperandStack where
  /-- The values, the last pushed first. -/
  values : List Value
  /-- How many values there may be. -/
  limit : Nat
  deriving DecidableEq, Repr

namespace OperandStack

def empty (limit : Nat) : OperandStack := ⟨[], limit⟩

def size (s : OperandStack) : Nat := s.values.length

/-- The values, the first pushed first (`Stack::as_slice`). -/
def toList (s : OperandStack) : List Value := s.values.reverse

/-- Puts a value on top, if there is room (`Stack::push`). -/
def push (s : OperandStack) (v : Value) : Except RunFault OperandStack :=
  if s.limit ≤ s.values.length then .error (.stackLimit s.limit)
  else .ok ⟨v :: s.values, s.limit⟩

/-- Takes the value on top (`Stack::pop`). -/
def pop (s : OperandStack) : Except RunFault (Value × OperandStack) :=
  match s.values with
  | [] => .error .stackUnderflow
  | v :: vs => .ok (v, ⟨vs, s.limit⟩)

/-- The value on top (`Stack::peek`). -/
def peek? (s : OperandStack) : Option Value := s.values.head?

/-- The stack without its values (`Stack::reset`). -/
def reset (s : OperandStack) : OperandStack := empty s.limit

/-- What was pushed is popped. -/
theorem pop_push {s t : OperandStack} {v : Value} (h : s.push v = .ok t) : t.pop = .ok (v, s) := by
  unfold push at h
  split at h
  · cases h
  · cases h
    rfl

end OperandStack

end Pseudocode
