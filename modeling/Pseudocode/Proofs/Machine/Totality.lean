import Pseudocode.Session
import Pseudocode.Proofs.Bytecode.Emission
import Pseudocode.Proofs.Machine.Growth
/-!
# Any code runs to an end

The machine takes any bytes for code, any values for constants, handles of no string among them, and
any heap. A turn that goes on has found all bytes of its instruction, so no run leaves the code; it
moves forward, so a run starts at most as many instructions as there are bytes; and only a push
makes the stack longer, which checks the limit.

* `RunState.turned`: everything that a turn can do;
* `Memory.stack_execute`: what pushes and pops keep, an instruction keeps;
* `RunState.Sound.turn`: what every turn keeps, and so every run;
* `RunState.halts`: where a run ends, by induction on its turns;
* `Session.run_halts`: how every run of a session ends.
-/
namespace Pseudocode

/-! ## Turns -/

/-- What a turn may come to: the code is at its end, the limit of steps is reached, or the
instruction at the offset fails, returns a value or goes on. -/
inductive RunState.Turned (limits : MachineLimits) (c : Chunk) (s : RunState) : Turn → Prop where
  | ended (outside : c.size ≤ s.offset) :
    Turned limits c s (.halt (.error ⟨.endOfCode, c.lineAt? (s.offset - 1)⟩) s)
  | stopped {f : RunFault} (inside : s.offset < c.size)
    (exceeded : limits.exceeded? (s.steps + 1) = some f) :
    Turned limits c s
      (.halt (.error ⟨f, c.lineAt? s.offset⟩) ⟨s.offset, s.steps + 1, s.memory⟩)
  | failed {byte : UInt8} {f : RunFault} {m : Memory} {width : Nat} (inside : s.offset < c.size)
    (effect : s.memory.step c s.offset byte = ((.error f, m), width)) :
    Turned limits c s (.halt (.error ⟨f, c.lineAt? s.offset⟩) ⟨s.offset, s.steps + 1, m⟩)
  | returned {byte : UInt8} {v : Value} {m : Memory} {width : Nat} (inside : s.offset < c.size)
    (effect : s.memory.step c s.offset byte = ((.ok (some v), m), width)) :
    Turned limits c s (.halt (.ok v) ⟨s.offset, s.steps + 1, m⟩)
  | next {byte : UInt8} {m : Memory} {width : Nat} (inside : s.offset < c.size)
    (effect : s.memory.step c s.offset byte = ((.ok none, m), width)) :
    Turned limits c s (.next ⟨s.offset + width, s.steps + 1, m⟩)

theorem RunState.turned (limits : MachineLimits) (c : Chunk) (s : RunState) :
    s.Turned limits c (s.turn limits c) := by
  unfold turn
  split
  · rename_i missing
    exact .ended (Array.getElem?_eq_none_iff.1 missing)
  · rename_i byte found
    have inside : s.offset < c.size := (Array.getElem?_eq_some_iff.1 found).1
    dsimp only
    split
    · rename_i f exceeded
      exact .stopped inside exceeded
    · split <;> rename_i effect
      · exact .next inside effect
      · exact .returned inside effect
      · exact .failed inside effect

/-! ## The stack -/

namespace Memory

section
variable {P : OperandStack → Prop} (pushed : ∀ s v t, s.push v = .ok t → P s → P t)
  (popped : ∀ s v t, s.pop = .ok (v, t) → P s → P t)
include pushed

theorem stack_push {m : Memory} (holds : P m.stack) (v : Value) : P (m.push v).2.stack := by
  unfold push
  split
  · rename_i full
    exact pushed _ _ _ full holds
  · exact holds

theorem stack_finish {m : Memory} (holds : P m.stack) (r : Except RunFault Value) :
    P (m.finish r).2.stack := by
  cases r with
  | ok v => exact stack_push pushed holds v
  | error f => exact holds

theorem stack_load {m : Memory} (holds : P m.stack) (c : Chunk) (offset : Nat) (op : Opcode) :
    P (m.load c offset op).2.stack := by
  unfold load
  split
  · exact holds
  split
  · exact holds
  · exact stack_push pushed holds _

omit pushed in
include popped in
theorem stack_pop {m : Memory} (holds : P m.stack) {next : Value → Memory → Effect}
    (after : ∀ v m', P m'.stack → P (next v m').2.stack) : P (m.pop next).2.stack := by
  unfold pop
  split
  · rename_i v stack taken
    exact after _ _ (popped _ _ _ taken holds)
  · exact holds

include popped

theorem stack_unary {m : Memory} (holds : P m.stack) (f : Value → Except RunFault Value) :
    P (m.unary f).2.stack :=
  stack_pop popped holds fun _ _ holds => stack_finish pushed holds _

theorem stack_binary {m : Memory} (holds : P m.stack) (f : Value → Value → Except RunFault Value) :
    P (m.binary f).2.stack :=
  stack_pop popped holds fun b _ holds => stack_unary pushed popped holds fun a => f a b

theorem stack_logical {m : Memory} (holds : P m.stack) (op : Opcode) (f : Bool → Bool → Bool) :
    P (m.logical op f).2.stack :=
  stack_pop popped holds fun b m holds => by
    split
    · exact holds
    · exact stack_unary pushed popped holds _

theorem stack_concat {m : Memory} (holds : P m.stack) : P m.concat.2.stack :=
  stack_pop popped holds fun b m holds => stack_pop popped holds fun a m holds => by
    split
    · exact holds
    · rename_i v heap _
      exact stack_push pushed (m := { m with heap }) holds v

/-- What pushes and pops keep of the stack, every instruction keeps. -/
theorem stack_execute {m : Memory} (holds : P m.stack) (c : Chunk) (offset : Nat) (op : Opcode) :
    P (m.execute c offset op).2.stack := by
  cases op with
  | constant | constantLong => exact stack_load pushed holds c offset _
  | pushTrue | pushFalse => exact stack_push pushed holds _
  | negate | not => exact stack_unary pushed popped holds _
  | and | or => exact stack_logical pushed popped holds _ _
  | concat => exact stack_concat pushed popped holds
  | finish => exact stack_pop popped holds fun _ _ holds => holds
  | _ => exact stack_binary pushed popped holds _

end

/-- What pushes and pops keep of the stack, the instruction of any byte keeps. -/
theorem stack_step {P : OperandStack → Prop} (pushed : ∀ s v t, s.push v = .ok t → P s → P t)
    (popped : ∀ s v t, s.pop = .ok (v, t) → P s → P t) {m : Memory} (holds : P m.stack) (c : Chunk)
    (offset : Nat) (byte : UInt8) : P (m.step c offset byte).1.2.stack := by
  unfold step
  split
  · exact holds
  · exact stack_execute pushed popped holds c offset _

end Memory

namespace OperandStack

/-- The stack has the given limit, and no more values than that. -/
def Within (limit : Nat) (s : OperandStack) : Prop := s.limit = limit ∧ s.size ≤ limit

theorem within_push {limit : Nat} (s : OperandStack) (v : Value) (t : OperandStack)
    (pushed : s.push v = .ok t) (within : s.Within limit) : t.Within limit := by
  unfold push at pushed
  split at pushed
  · cases pushed
  · rename_i room
    cases pushed
    simp only [Within, size, List.length_cons] at within ⊢
    omega

theorem within_pop {limit : Nat} (s : OperandStack) (v : Value) (t : OperandStack)
    (popped : s.pop = .ok (v, t)) (within : s.Within limit) : t.Within limit := by
  unfold pop at popped
  split at popped
  · cases popped
  · rename_i values
    cases popped
    simp only [Within, size, values, List.length_cons] at within ⊢
    omega

end OperandStack

/-! ## Offsets -/

/-- An index that was read was there. -/
theorem Chunk.lt_size_of_loadIndex? {c : Chunk} {offset index : Nat} {op : Opcode}
    (carried : c.loadIndex? offset op = some index) : offset + op.operandSize < c.size := by
  unfold loadIndex? at carried
  split at carried
  · obtain ⟨byte, found, -⟩ := Option.map_eq_some_iff.1 carried
    exact (Array.getElem?_eq_some_iff.1 found).1
  · simp only [Option.bind_eq_bind, Option.bind_eq_some_iff] at carried
    obtain ⟨-, -, -, -, high, found, -⟩ := carried
    have inside : offset + 3 < c.size := (Array.getElem?_eq_some_iff.1 found).1
    cases op <;> simp only [Opcode.operandSize] <;> omega

/-- An instruction that goes on has all its bytes in the code. -/
theorem Memory.lt_size_of_execute {m m' : Memory} {c : Chunk} {offset : Nat} {op : Opcode}
    (inside : offset < c.size) (effect : m.execute c offset op = (.ok none, m')) :
    offset + op.operandSize < c.size := by
  have carried {op : Opcode} (effect : m.load c offset op = (.ok none, m')) :
      offset + op.operandSize < c.size := by
    unfold load at effect
    split at effect
    · cases effect
    · rename_i index carried
      exact Chunk.lt_size_of_loadIndex? carried
  cases op with
  | constant | constantLong => exact carried effect
  | _ => exact inside

theorem Memory.le_size_of_step {m m' : Memory} {c : Chunk} {offset width : Nat} {byte : UInt8}
    (inside : offset < c.size) (effect : m.step c offset byte = ((.ok none, m'), width)) :
    offset + width ≤ c.size := by
  unfold step at effect
  split at effect
  · cases effect
  · rename_i op _
    obtain ⟨ran, rfl⟩ := Prod.mk.inj effect
    have := lt_size_of_execute inside ran
    omega

/-! ## Runs -/

def Turn.state : Turn → RunState
  | next s => s
  | halt _ s => s

namespace RunState

/-- The state is inside the code or at its end, and keeps the limit of the stack. -/
structure Sound (limits : MachineLimits) (c : Chunk) (s : RunState) : Prop where
  offset : s.offset ≤ c.size
  stack : s.memory.stack.Within limits.stack

theorem sound_start (limits : MachineLimits) (c : Chunk) (heap : Heap) :
    (start limits heap).Sound limits c :=
  ⟨Nat.zero_le _, rfl, Nat.zero_le _⟩

/-- Every turn keeps what is promised of a state. -/
theorem Sound.turn {limits : MachineLimits} {c : Chunk} {s : RunState} (sound : s.Sound limits c) :
    (s.turn limits c).state.Sound limits c := by
  have stack {byte : UInt8} {r : Except RunFault (Option Value)} {m : Memory} {width : Nat}
      (effect : s.memory.step c s.offset byte = ((r, m), width)) :
      m.stack.Within limits.stack := by
    have within := Memory.stack_step OperandStack.within_push OperandStack.within_pop sound.stack c
      s.offset byte
    rwa [effect] at within
  have turned := s.turned limits c
  generalize s.turn limits c = turn at turned
  cases turned with
  | ended => exact sound
  | stopped => exact ⟨sound.offset, sound.stack⟩
  | failed _ effect => exact ⟨sound.offset, stack effect⟩
  | returned _ effect => exact ⟨sound.offset, stack effect⟩
  | next inside effect => exact ⟨Memory.le_size_of_step inside effect, stack effect⟩

/-- The offsets at which the turns of a run find an instruction to start. -/
def cycles (limits : MachineLimits) (c : Chunk) (s : RunState) : List Nat :=
  ((s.visited limits c).map offset).filter (· < c.size)

section
variable {limits : MachineLimits} {c : Chunk} {s t : RunState}

theorem visited_of_halt {result : Except RunError Value} (h : s.turn limits c = .halt result t) :
    s.visited limits c = [s] := by
  rw [visited]
  split <;> rename_i h' <;> simp [h] at h' ⊢

theorem visited_of_next (h : s.turn limits c = .next t) :
    s.visited limits c = s :: t.visited limits c := by
  rw [visited]
  split <;> rename_i h' <;> simp [h] at h' ⊢
  rw [h']

theorem cycles_of_next (h : s.turn limits c = .next t) :
    s.cycles limits c = s.offset :: t.cycles limits c := by
  have inside := (offset_lt_of_turn h).1
  simp [cycles, visited_of_next h, inside]

theorem cycles_of_halt {result : Except RunError Value} (h : s.turn limits c = .halt result t) :
    s.cycles limits c = if s.offset < c.size then [s.offset] else [] := by
  simp [cycles, visited_of_halt h, List.filter_cons]

end

/-- How the run from a state ends. -/
structure Halts (limits : MachineLimits) (c : Chunk) (s : RunState) : Prop where
  /-- The last turn ends the run. -/
  last : ∃ t, (s.visited limits c).getLast? = some t ∧
    t.turn limits c = .halt (s.run limits c).1 (s.run limits c).2
  sound : ∀ t ∈ s.visited limits c, t.Sound limits c
  /-- Every instruction is started behind the one before. -/
  increasing : (s.cycles limits c).Pairwise (· < ·)
  inside : ∀ o ∈ s.cycles limits c, s.offset ≤ o ∧ o < c.size
  /-- Every instruction started is counted. -/
  counted : (s.run limits c).2.steps = s.steps + (s.cycles limits c).length
  few : s.offset + (s.cycles limits c).length ≤ c.size

theorem halts_of_halt {limits : MachineLimits} {c : Chunk} {s t : RunState}
    {result : Except RunError Value} (sound : s.Sound limits c)
    (h : s.turn limits c = .halt result t) : s.Halts limits c := by
  have run : s.run limits c = (result, t) := by rw [run_eq, h]
  have visited := visited_of_halt h
  have cycles := cycles_of_halt h
  have steps : t.steps = s.steps + (s.cycles limits c).length := by
    have turned := s.turned limits c
    rw [h] at turned
    cases turned with
    | ended outside => simp [cycles, Nat.not_lt_of_le outside]
    | stopped inside | failed inside | returned inside => simp [cycles, inside]
  refine ⟨⟨s, ?_, ?_⟩, ?_, ?_, ?_, ?_, ?_⟩
  · rw [visited]; rfl
  · rw [h, run]
  · simpa [visited] using sound
  · rw [cycles]; split <;> simp
  · rw [cycles]; split <;> simp [*]
  · rw [run]; exact steps
  · have := sound.offset
    rw [cycles]
    split <;> simp <;> omega

theorem halts_of_next {limits : MachineLimits} {c : Chunk} {s t : RunState}
    (sound : s.Sound limits c) (h : s.turn limits c = .next t) (rest : t.Halts limits c) :
    s.Halts limits c := by
  have run : s.run limits c = t.run limits c := by rw [run_eq, h]
  have visited := visited_of_next h
  have cycles := cycles_of_next h
  obtain ⟨inside, forward⟩ := offset_lt_of_turn h
  have counted : t.steps = s.steps + 1 := by
    have turned := s.turned limits c
    rw [h] at turned
    cases turned
    rfl
  obtain ⟨last, found, halted⟩ := rest.last
  refine ⟨⟨last, ?_, ?_⟩, ?_, ?_, ?_, ?_, ?_⟩
  · rw [visited, List.getLast?_cons, found]; rfl
  · rw [run, halted]
  · rw [visited]
    exact List.forall_mem_cons.2 ⟨sound, rest.sound⟩
  · rw [cycles, List.pairwise_cons]
    exact ⟨fun o inside => by have := (rest.inside o inside).1; omega, rest.increasing⟩
  · rw [cycles]
    refine List.forall_mem_cons.2 ⟨⟨Nat.le_refl _, inside⟩, fun o there => ?_⟩
    have := rest.inside o there
    omega
  · rw [run, cycles, rest.counted, List.length_cons]
    omega
  · have := rest.few
    rw [cycles, List.length_cons]
    omega

/-- Every run ends, by induction on its turns. -/
theorem halts {limits : MachineLimits} {c : Chunk} {s : RunState} (sound : s.Sound limits c) :
    s.Halts limits c := by
  fun_induction run limits c s with
  | case1 s result t h => exact halts_of_halt sound h
  | case2 s t h ih =>
    have after := sound.turn
    rw [h] at after
    exact halts_of_next sound h (ih after)

end RunState

/-! ## Errors -/

namespace RunState
variable {limits : MachineLimits} {c : Chunk} {s : RunState}

/-- An instruction at which the last turn begins is the last that is started. -/
theorem getLast?_cycles {t : RunState} (last : (s.visited limits c).getLast? = some t)
    (inside : t.offset < c.size) : (s.cycles limits c).getLast? = some t.offset := by
  obtain ⟨front, whole⟩ := List.getLast?_eq_some_iff.1 last
  simp [cycles, whole, inside]

/-- An error has the line of the instruction started last, in which the run ended, or of the last
byte if the code ran out. -/
theorem Halts.located (halts : s.Halts limits c) {e : RunError}
    (failed : (s.run limits c).1 = .error e) :
    (s.run limits c).2.offset < c.size ∧
        (s.cycles limits c).getLast? = some (s.run limits c).2.offset ∧
        e.line = c.lineAt? (s.run limits c).2.offset ∨
      (s.run limits c).2.offset = c.size ∧ e = ⟨.endOfCode, c.lineAt? (c.size - 1)⟩ := by
  obtain ⟨t, last, halted⟩ := halts.last
  have sound := halts.sound t (List.mem_of_getLast? last)
  have turned := t.turned limits c
  rw [halted, failed] at turned
  generalize (s.run limits c).2 = u at turned ⊢
  cases turned with
  | ended outside =>
    have atEnd : t.offset = c.size := Nat.le_antisymm sound.offset outside
    rw [atEnd]
    exact .inr ⟨rfl, rfl⟩
  | stopped inside | failed inside =>
    exact .inl ⟨inside, getLast?_cycles (t := t) last inside, rfl⟩

end RunState

/-- **Every run ends**, whatever the code, the constants and the heap. It starts at most as many
instructions as there are bytes, each behind the one before, and never has more values on the stack
than the limit allows. The session tells how the run went, and an error has the line of the
instruction started last, or of the last byte if the code ran out: a line is only missing where
there is no code. -/
theorem Session.run_halts (s : Session) {c : Chunk} (covered : c.Covered) :
    let start := RunState.start s.limits s.heap
    let last := (c.run s.limits s.heap).2
    (start.cycles s.limits c).length ≤ c.size ∧
      (start.cycles s.limits c).Pairwise (· < ·) ∧
      last.steps = (start.cycles s.limits c).length ∧
      (∀ t ∈ start.visited s.limits c, t.memory.stack.size ≤ s.limits.stack) ∧
      (s.run c).2.stack.size ≤ s.limits.stack ∧
      ((∃ v, (s.run c).1 = .ok v ∧ (s.run c).2.status = .succeeded) ∨
        ∃ e, (s.run c).1 = .error e ∧ (s.run c).2.status = .failed ∧
          (last.offset < c.size ∧ (start.cycles s.limits c).getLast? = some last.offset ∧
              e.line = c.lineAt? last.offset ∨
            last.offset = c.size ∧ e = ⟨.endOfCode, c.lineAt? (c.size - 1)⟩) ∧
          (e.line = none ↔ c.size = 0)) := by
  intro start last
  have halts := RunState.halts (RunState.sound_start s.limits c s.heap)
  obtain ⟨t, found, halted⟩ := halts.last
  have within : last.memory.stack.Within s.limits.stack := by
    have after := (halts.sound t (List.mem_of_getLast? found)).turn
    rw [halted] at after
    exact after.stack
  have counted : last.steps = 0 + (start.cycles s.limits c).length := halts.counted
  have few : 0 + (start.cycles s.limits c).length ≤ c.size := halts.few
  rw [Nat.zero_add] at counted few
  refine ⟨few, halts.increasing, counted, fun t there => (halts.sound t there).stack.2, within.2,
    ?_⟩
  cases result : (c.run s.limits s.heap).1 with
  | ok v => exact .inl ⟨v, by simp [run, result], by simp [run, result]⟩
  | error e =>
    have located := halts.located result
    refine .inr ⟨e, by simp [run, result], by simp [run, result], located, ?_⟩
    rcases located with ⟨inside, -, line⟩ | ⟨-, rfl⟩
    · rw [line, covered.lineAt?_eq_none_iff]
      omega
    · rw [covered.lineAt?_eq_none_iff]
      omega

/-- Code that joins two handles of no string, and has half an instruction behind it. -/
theorem Session.run_halts_dangling :
    let c : Chunk := ⟨#[0, 0, 0, 0, 14, 1], #[.string ⟨7⟩], #[⟨3, 4⟩, ⟨5, 2⟩]⟩
    c.Covered ∧ (Session.new.run c).1 = .error ⟨.danglingString, some 5⟩ ∧
      (Session.new.run c).2.status = .failed := by
  intro c
  have covered : c.Covered := rfl
  have failed : (Session.new.run c).1 = .error ⟨.danglingString, some 5⟩ := by cbv
  obtain ⟨-, -, -, -, -, ended⟩ := Session.new.run_halts covered
  rcases ended with ⟨v, ok, -⟩ | ⟨e, -, status, -⟩
  · rw [failed] at ok
    cases ok
  · exact ⟨covered, failed, status⟩

end Pseudocode
