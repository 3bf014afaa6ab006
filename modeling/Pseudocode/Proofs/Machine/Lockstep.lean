import Mathlib
import Pseudocode.Trace
import Pseudocode.Proofs.Bytecode.Decoding
import Pseudocode.Proofs.Machine.Totality
/-!
# The machine and the listing read the same instructions

The machine reads operations and operands for itself, and the listing decodes them. Both find the
same instructions in any bytes: a run starts its instructions where the first rows of the listing
start, does what the decoded instruction says, and ends where there is none. A run only adds strings
to the heap, so the rows that a trace reports are those of the listing before the run.

* `Memory.perform`: what a decoded instruction does;
* `RunState.turn_of_decode`, `RunState.turn_of_refused`: a turn, by what is decoded at its offset;
* `RunState.cycles_prefix`: the offsets of a run, by induction on its turns;
* `RunState.traced`: the rows that a trace reports;
* `Session.run_follows_listing`: the run of any chunk in a session.
-/
namespace Pseudocode

/-! ## Turns and decoded instructions -/

/-- The fault of a run that gets to bytes which are no instruction. -/
def DecodeError.fault? : DecodeError → Option RunFault
  | unknownOpcode _ byte => some (.unknownOpcode byte)
  | truncated _ op => some (.truncated op)
  | outOfRange _ | missingLine _ => none

/-- Executes a decoded instruction, whose operand is the index of the constant that it loads. -/
def Memory.perform (m : Memory) (c : Chunk) (i : Instruction) : Effect :=
  match i.operand with
  | some index =>
    match c.constants[index]? with
    | some v => m.push v
    | none => (.error (.constantIndex index), m)
  | none => m.execute c i.offset i.opcode

/-- The turn in which an instruction has an effect. -/
def RunState.after (s : RunState) (i : Instruction) (effect : Effect) : Turn :=
  match effect with
  | (.ok none, memory) => .next ⟨s.offset + i.width, s.steps + 1, memory⟩
  | (.ok (some v), memory) => .halt (.ok v) ⟨s.offset, s.steps + 1, memory⟩
  | (.error f, memory) => .halt (.error ⟨f, some i.line⟩) ⟨s.offset, s.steps + 1, memory⟩

section
variable {c : Chunk} {offset : Nat} {op : Opcode}

/-- A load whose bytes are all there carries an index. -/
theorem Chunk.isSome_operandAt (inside : offset + op.operandSize < c.size) :
    (c.operandAt offset op).isSome = (op.operandSize != 0) := by
  unfold operandAt
  have there {i : Nat} (lower : i < c.size) : c.code[i]? = some c.code[i] :=
    Array.getElem?_eq_getElem lower
  cases op with
  | constant =>
    simp only [Opcode.operandSize] at inside ⊢
    simp [loadIndex?, there inside]
  | constantLong =>
    simp only [Opcode.operandSize] at inside ⊢
    simp [loadIndex?, there inside, there (show offset + 1 < c.size by omega),
      there (show offset + 2 < c.size by omega)]
  | _ => rfl

theorem Memory.execute_eq_perform (m : Memory) (line : UInt32) :
    m.execute c offset op = m.perform c ⟨offset, op, c.operandAt offset op, line⟩ := by
  unfold perform
  cases operand : c.operandAt offset op with
  | none => rfl
  | some index =>
    unfold Chunk.operandAt at operand
    split at operand
    · cases operand
    · cases op with
      | constant | constantLong =>
        simp only [execute, load, operand]
        cases c.constants[index]? <;> rfl
      | _ => simp [Opcode.operandSize] at *

end

namespace RunState
variable {limits : MachineLimits} {c : Chunk} {s : RunState}

/-- A turn does what the instruction at its offset says. -/
theorem turn_of_decode {i : Instruction} (decoded : c.decode s.offset = .ok i)
    (allowed : limits.exceeded? (s.steps + 1) = none) :
    s.turn limits c = s.after i (s.memory.perform c i) := by
  have found := c.decoded s.offset
  rw [decoded] at found
  cases found with
  | @instruction op line found inside lined =>
    rw [turn_of_opcode found allowed, Memory.execute_eq_perform _ line, lined]
    rfl

/-- A turn that finds no instruction ends the run. -/
theorem turn_of_refused (limits : MachineLimits) (covered : c.Covered)
    (inside : s.offset < c.size) {e : DecodeError} (refused : c.decode s.offset = .error e) :
    ∃ f, e.fault? = some f ∧
      s.turn limits c = .halt
        (.error ⟨(limits.exceeded? (s.steps + 1)).getD f, c.lineAt? s.offset⟩)
        ⟨s.offset, s.steps + 1, s.memory⟩ := by
  have found := c.decoded s.offset
  rw [refused] at found
  cases found with
  | outOfRange outside => omega
  | missingLine missing => exact absurd (covered.lineAt?_eq_none_iff.1 missing) (by omega)
  | @unknownOpcode byte found unknown =>
    refine ⟨.unknownOpcode byte, rfl, ?_⟩
    cases exceeded : limits.exceeded? (s.steps + 1) with
    | some f => rw [turn_of_exceeded found exceeded]; rfl
    | none =>
      rw [turn, found]
      simp only [exceeded, Memory.step, unknown]
      rfl
  | @truncated op found short =>
    refine ⟨.truncated op, rfl, ?_⟩
    cases exceeded : limits.exceeded? (s.steps + 1) with
    | some f => rw [turn_of_exceeded found exceeded]; rfl
    | none =>
      have lost : c.loadIndex? s.offset op = none := by
        cases carried : c.loadIndex? s.offset op with
        | none => rfl
        | some index => exact absurd (Chunk.lt_size_of_loadIndex? carried) (by omega)
      have effect : s.memory.execute c s.offset op = (.error (.truncated op), s.memory) := by
        cases op with
        | constant | constantLong => rw [Memory.execute, Memory.load, lost]
        | _ => simp only [Opcode.operandSize] at short; omega
      rw [turn_of_opcode found exceeded, effect]
      rfl

/-! ## Runs and rows -/

/-- What holds of the first state and is kept by turns holds wherever a turn begins. -/
theorem forall_visited {P : RunState → Prop} (start : P s)
    (next : ∀ {t u}, P t → t.turn limits c = .next u → P u) : ∀ t ∈ s.visited limits c, P t := by
  fun_induction visited limits c s with
  | case1 s result t h => simpa using start
  | case2 s t h ih => exact List.forall_mem_cons.2 ⟨start, ih (next start h)⟩

theorem run_of_mem_visited {t : RunState} (inside : t ∈ s.visited limits c) :
    t.run limits c = s.run limits c := by
  refine forall_visited (P := fun t => t.run limits c = s.run limits c) rfl ?_ t inside
  intro t u same h
  rw [← same, run_eq limits c t, h]

theorem grows_visited {t : RunState} (inside : t ∈ s.visited limits c) :
    s.memory.heap.Grows t.memory.heap := by
  refine forall_visited (P := fun t => s.memory.heap.Grows t.memory.heap) (.refl _) ?_ t inside
  intro t u grows h
  have more := grows_turn limits c t
  rw [h] at more
  exact grows.trans more

/-- A turn that goes on gets to the next row. -/
theorem nextRow_of_next (covered : c.Covered) {t : RunState} (h : s.turn limits c = .next t) :
    t.offset = c.nextRow s.offset := by
  have inside := (offset_lt_of_turn h).1
  cases decoded : c.decode s.offset with
  | error e =>
    obtain ⟨f, -, refused⟩ := turn_of_refused limits covered inside decoded
    rw [h] at refused
    cases refused
  | ok i =>
    rw [Chunk.nextRow, decoded]
    cases exceeded : limits.exceeded? (s.steps + 1) with
    | some f =>
      obtain ⟨byte, found⟩ : ∃ byte, c.code[s.offset]? = some byte :=
        ⟨_, Array.getElem?_eq_getElem inside⟩
      rw [turn_of_exceeded found exceeded] at h
      cases h
    | none =>
      rw [turn_of_decode decoded exceeded] at h
      unfold after at h
      split at h <;> cases h
      rfl

/-- A run starts its instructions at the offsets of the first rows, by induction on its turns. -/
theorem cycles_prefix (covered : c.Covered) :
    s.cycles limits c <+: c.rowOffsetsFrom s.offset := by
  fun_induction run limits c s with
  | case1 s result t h =>
    rw [cycles_of_halt h]
    split
    · rename_i inside
      rw [Chunk.rowOffsetsFrom, dif_pos inside]
      exact List.cons_prefix_cons.2 ⟨rfl, List.nil_prefix⟩
    · exact List.nil_prefix
  | case2 s t h ih =>
    rw [cycles_of_next h, Chunk.rowOffsetsFrom, dif_pos (offset_lt_of_turn h).1,
      ← nextRow_of_next covered h]
    exact List.cons_prefix_cons.2 ⟨rfl, ih⟩

end RunState

/-! ## Traces -/

/-- Strings that are added to the heap do not change a row. -/
theorem Chunk.row_of_grows {c : Chunk} {heap heap' : Heap}
    (live : ∀ r, .string r ∈ c.constants → (heap.get? r).isSome) (grows : heap.Grows heap')
    (offset : Nat) : c.row heap' offset = c.row heap offset := by
  have constants (index : Nat) : c.constantText heap' index = c.constantText heap index := by
    unfold constantText
    cases found : c.constants[index]? with
    | none => rfl
    | some v =>
      cases v with
      | string r =>
        obtain ⟨object, there⟩ := Option.isSome_iff_exists.1 (live r (Array.mem_of_getElem? found))
        simp [Value.listed, Value.textWith, there, grows.get? there]
      | _ => rfl
  simp only [row, rowText, constants]

namespace RunState
variable {limits : MachineLimits} {c : Chunk} {s : RunState}

/-- The rows that a trace of the run reports, if all strings of the chunk are there at the start. -/
theorem traced (live : ∀ r, .string r ∈ c.constants → (s.memory.heap.get? r).isSome) :
    ((s.visited limits c).filterMap (Trace.turn? c)).map Event.message =
      (s.cycles limits c).map (c.row s.memory.heap) := by
  have grown : ∀ t ∈ s.visited limits c, s.memory.heap.Grows t.memory.heap :=
    fun _ inside => grows_visited inside
  unfold cycles
  generalize s.visited limits c = states at grown
  induction states with
  | nil => rfl
  | cons t states ih =>
    obtain ⟨here, others⟩ := List.forall_mem_cons.1 grown
    have row := Chunk.row_of_grows live here t.offset
    by_cases inside : t.offset < c.size
    · simp [Trace.turn?, inside, Event.message, row, ih others]
    · simp [Trace.turn?, inside, ih others]

end RunState

/-- The turns are the events of a run that only a close look shows. -/
theorem Trace.running_filter (s : Session) (c : Chunk) :
    (running s c).filter (fun e => e.level = .trace) =
      ((RunState.start s.limits s.heap).visited s.limits c).filterMap (turn? c) := by
  unfold running
  rw [List.filter_append]
  have turns : ∀ e ∈ ((RunState.start s.limits s.heap).visited s.limits c).filterMap (turn? c),
      decide (e.level = .trace) = true := by
    intro e inside
    obtain ⟨t, -, found⟩ := List.mem_filterMap.1 inside
    unfold turn? at found
    split at found <;> cases found
    rfl
  rw [List.filter_eq_self.2 turns]
  split <;> exact List.append_nil _

/-! ## Sessions -/

/-- How a turn that begins at `t`, inside the code, goes along with what is decoded there: an
instruction is executed, unless the limit of steps is reached, and no instruction ends the run. -/
structure RunState.Follows (limits : MachineLimits) (c : Chunk)
    (ending : Except RunError Value × RunState) (t : RunState) : Prop where
  executes : ∀ {i}, c.decode t.offset = .ok i → limits.exceeded? (t.steps + 1) = none →
    t.turn limits c = t.after i (t.memory.perform c i) ∧
      i.operand.isSome = (i.opcode.operandSize != 0)
  refuses : ∀ {e}, c.decode t.offset = .error e → ∃ f, e.fault? = some f ∧
    ending = (.error ⟨(limits.exceeded? (t.steps + 1)).getD f, c.lineAt? t.offset⟩,
      ⟨t.offset, t.steps + 1, t.memory⟩)

/-- **A run goes along the listing**, whatever the bytes of the code. It starts its instructions at
the offsets of the first rows; each turn does what is decoded there; and if all strings of the chunk
are on the heap, the trace reports the rows that were there before the run. -/
theorem Session.run_follows_listing (s : Session) {c : Chunk} (covered : c.Covered) :
    let start := RunState.start s.limits s.heap
    start.cycles s.limits c <+: c.rowOffsets ∧
      (∀ t ∈ start.visited s.limits c, t.offset < c.size →
        t.Follows s.limits c (c.run s.limits s.heap)) ∧
      ((∀ r, .string r ∈ c.constants → (s.heap.get? r).isSome) →
        ((Trace.running s c).filter fun e => e.level = .trace).map Event.message =
          (start.cycles s.limits c).map (c.row s.heap)) := by
  intro start
  refine ⟨RunState.cycles_prefix covered, fun t visited inside => ⟨?_, ?_⟩, fun live => ?_⟩
  · intro i decoded allowed
    have found := c.decoded t.offset
    rw [decoded] at found
    refine ⟨RunState.turn_of_decode decoded allowed, ?_⟩
    cases found with
    | instruction _ inside _ => exact Chunk.isSome_operandAt inside
  · intro e refused
    obtain ⟨f, fault, halted⟩ := RunState.turn_of_refused s.limits covered inside refused
    refine ⟨f, fault, ?_⟩
    rw [Chunk.run, ← RunState.run_of_mem_visited visited, RunState.run_eq, halted]
  · rw [Trace.running_filter]
    exact RunState.traced (s := start) live

/-- Code that loads a string, pushes a truth value and gets to a byte that is no operation. -/
theorem Session.run_follows_listing_unknown :
    let c : Chunk := ⟨#[0, 0, 2, 77], #[.string ⟨0⟩], #[⟨1, 2⟩, ⟨2, 2⟩]⟩
    let s := Session.start .standard (Heap.new.copyString "a").2
    c.Covered ∧ (∀ r, .string r ∈ c.constants → (s.heap.get? r).isSome) ∧
      [0, 2, 3] <+: c.rowOffsets ∧
      ((Trace.running s c).filter fun e => e.level = .trace).map Event.message =
        [0, 2, 3].map (c.row s.heap) ∧
      (c.run s.limits s.heap).1 = .error ⟨.unknownOpcode 77, some 2⟩ := by
  intro c s
  have covered : c.Covered := rfl
  have live : ∀ r, .string r ∈ c.constants → (s.heap.get? r).isSome := by
    intro r inside
    obtain rfl : r = ⟨0⟩ := by simpa [c] using inside
    dsimp only [s]; cbv
  have cycles : (RunState.start s.limits s.heap).cycles s.limits c = [0, 2, 3] := by
    dsimp only [s, c]; cbv
  have failed : (c.run s.limits s.heap).1 = .error ⟨.unknownOpcode 77, some 2⟩ := by
    dsimp only [s, c]; cbv
  obtain ⟨first, -, rows⟩ := s.run_follows_listing covered
  rw [cycles] at first rows
  exact ⟨covered, live, first, rows live, failed⟩

end Pseudocode
