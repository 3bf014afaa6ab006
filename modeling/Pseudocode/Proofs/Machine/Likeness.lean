import Mathlib.Data.List.Forall2
import Pseudocode.Proofs.Machine.Simulation
import Pseudocode.Session
/-!
# Runs on different heaps

The handle of a string says where the string is on its heap, and depends on what was done to the
heap before. Nothing else does: values on two heaps are alike if they stand for the same constant,
and two runs of the same code that start with alike constants take the same turns, with alike values
on their stacks, and end alike. The strings joined on the way lie at different places of the two
heaps.

The heap of the second run has at least as many strings as that of the first (`Memory.Alike`), and
stays ahead, so only the second must have room for all its handles.

* `Memory.alike_execute`, `RunState.alike_turn`: an instruction and a turn on alike memories;
* `RunState.alike_run`: whole runs, by induction on their turns;
* `Session.endAlike_run`: the runs of alike chunks in two sessions, whichever heap is larger.
-/
namespace Pseudocode

/-- The same error, or values that are related. -/
inductive SameResult {ε α β : Type} (R : α → β → Prop) : Except ε α → Except ε β → Prop where
  | ok {a : α} {b : β} (related : R a b) : SameResult R (.ok a) (.ok b)
  | error (e : ε) : SameResult R (.error e) (.error e)

/-- The values stand for the same constant, each on its heap: scalars are the same, and strings have
the same text. -/
def Value.Alike (heap heap' : Heap) (v v' : Value) : Prop :=
  ∃ a, Means heap v a ∧ Means heap' v' a

namespace SameResult
variable {ε ε' α β : Type} {R S : α → β → Prop} {x : Except ε α} {y : Except ε β}

theorem imp (same : SameResult R x y) (weaker : ∀ a b, R a b → S a b) : SameResult S x y := by
  cases same with
  | ok related => exact .ok (weaker _ _ related)
  | error e => exact .error e

theorem flip (same : SameResult R x y) : SameResult (fun b a => R a b) y x := by
  cases same with
  | ok related => exact .ok related
  | error e => exact .error e

theorem mapError (same : SameResult R x y) (f : ε → ε') :
    SameResult R (x.mapError f) (y.mapError f) := by
  cases same with
  | ok related => exact .ok related
  | error e => exact .error (f e)

/-- Functions that agree on related values give equal results. -/
theorem map_eq {γ : Type} (same : SameResult R x y) {f : α → γ} {g : β → γ}
    (agree : ∀ a b, R a b → f a = g b) : x.map f = y.map g := by
  cases same with
  | ok related => exact congrArg Except.ok (agree _ _ related)
  | error e => rfl

end SameResult

namespace Value.Alike
variable {heap heap' : Heap} {v v' w w' : Value}

theorem flip (alike : Alike heap heap' v v') : Alike heap' heap v' v := by
  obtain ⟨a, left, right⟩ := alike
  exact ⟨a, right, left⟩

theorem grows {larger larger' : Heap} (alike : Alike heap heap' v v') (left : heap.Grows larger)
    (right : heap'.Grows larger') : Alike larger larger' v v' := by
  obtain ⟨a, means, means'⟩ := alike
  exact ⟨a, means.grows left, means'.grows right⟩

/-- Alike values are shown as the same text. -/
theorem shown_eq (alike : Alike heap heap' v v') : v.shown heap = v'.shown heap' := by
  obtain ⟨a, means, means'⟩ := alike
  cases means with
  | text live =>
    cases means' with
    | text live' =>
      obtain ⟨s, found, text⟩ := Option.map_eq_some_iff.1 live
      obtain ⟨s', found', text'⟩ := Option.map_eq_some_iff.1 live'
      simp [Value.shown, Value.textWith, found, found', text, text']
  | _ => cases means'; rfl

theorem isEqual_eq (left : Alike heap heap' v v') (right : Alike heap heap' w w') :
    v.isEqual heap w = v'.isEqual heap' w' := by
  obtain ⟨a, means, means'⟩ := left
  obtain ⟨b, other, other'⟩ := right
  rw [means.isEqual other, means'.isEqual other']

/-- Alike strings are on their heaps, with one text. -/
theorem text? {r r' : Handle} (alike : Alike heap heap' (.string r) (.string r')) :
    ∃ t, heap.text? r = some t ∧ heap'.text? r' = some t := by
  obtain ⟨a, means, means'⟩ := alike
  cases means with
  | text live => cases means' with | text live' => exact ⟨_, live, live'⟩

theorem truth_eq (alike : Alike heap heap' v v') (op : Opcode) : truth op v = truth op v' := by
  obtain ⟨a, means, means'⟩ := alike
  rw [Pseudocode.truth_eq means, Pseudocode.truth_eq means']

end Value.Alike

/-- Results that stand for the same result. -/
theorem SameResult.of_agrees {heap heap' : Heap} {r r' : Except RunFault Value}
    {x : Except RunFault Constant} (agrees : Agrees heap r x) (agrees' : Agrees heap' r' x) :
    SameResult (Value.Alike heap heap') r r' := by
  cases agrees with
  | ok means => cases agrees' with | ok means' => exact .ok ⟨_, means, means'⟩
  | error f => cases agrees'; exact .error f

/-! ## Memories -/

/-- Alike values on the stacks, and no fewer strings on the second heap. -/
structure Memory.Alike (m m' : Memory) : Prop where
  limit : m.stack.limit = m'.stack.limit
  values : List.Forall₂ (Value.Alike m.heap m'.heap) m.stack.values m'.stack.values
  size : m.heap.size ≤ m'.heap.size

/-- The same fault or alike values, and alike memories. -/
structure Effect.Alike (e e' : Effect) : Prop where
  result : SameResult (Option.Rel (Value.Alike e.2.heap e'.2.heap)) e.1 e'.1
  memory : e.2.Alike e'.2

/-- The same code and lines, and alike constants. -/
structure Chunk.Alike (heap heap' : Heap) (c c' : Chunk) : Prop where
  code : c.code = c'.code
  lines : c.lines = c'.lines
  constants : List.Forall₂ (Value.Alike heap heap') c.constants.toList c'.constants.toList

theorem Chunk.Alike.grows {heap heap' larger larger' : Heap} {c c' : Chunk}
    (alike : c.Alike heap heap' c') (left : heap.Grows larger) (right : heap'.Grows larger') :
    c.Alike larger larger' c' :=
  ⟨alike.code, alike.lines, alike.constants.imp fun _ _ alike => alike.grows left right⟩

theorem rel_getElem? {α β : Type} {R : α → β → Prop} {xs : List α} {ys : List β}
    (all : List.Forall₂ R xs ys) (i : Nat) : Option.Rel R xs[i]? ys[i]? := by
  induction all generalizing i with
  | nil => exact .none
  | cons first _ ih =>
    cases i with
    | zero => exact .some first
    | succ i => exact ih i

theorem Chunk.Alike.flip {heap heap' : Heap} {c c' : Chunk} (alike : c.Alike heap heap' c') :
    c'.Alike heap' heap c :=
  ⟨alike.code.symm, alike.lines.symm, .flip (alike.constants.imp fun _ _ alike => alike.flip)⟩

/-! ## Instructions -/

namespace Memory
variable {m m' : Memory}

/-- Alike memories have alike values on top, or none. -/
theorem alike_pop (alike : m.Alike m') {next next' : Value → Memory → Effect}
    (after : ∀ v v' n n', Value.Alike m.heap m'.heap v v' → n.Alike n' → n.heap = m.heap →
      n'.heap = m'.heap → Effect.Alike (next v n) (next' v' n')) :
    Effect.Alike (m.pop next) (m'.pop next') := by
  obtain ⟨⟨values, limit⟩, heap⟩ := m
  obtain ⟨⟨values', limit'⟩, heap'⟩ := m'
  obtain ⟨same, values, size⟩ := alike
  cases values with
  | nil => exact ⟨.error _, same, .nil, size⟩
  | cons top values => exact after _ _ _ _ top ⟨same, values, size⟩ rfl rfl

theorem alike_push (alike : m.Alike m') {v v' : Value}
    (value : Value.Alike m.heap m'.heap v v') : Effect.Alike (m.push v) (m'.push v') := by
  obtain ⟨⟨values, limit⟩, heap⟩ := m
  obtain ⟨⟨values', limit'⟩, heap'⟩ := m'
  obtain ⟨same, values, size⟩ := alike
  obtain rfl : limit = limit' := same
  have length := values.length_eq
  simp only at length
  unfold push OperandStack.push
  by_cases full : limit ≤ values'.length
  · simp only [length, if_pos full]
    exact ⟨.error _, rfl, values, size⟩
  · simp only [length, if_neg full]
    exact ⟨.ok .none, rfl, .cons value values, size⟩

theorem alike_finish (alike : m.Alike m') {r r' : Except RunFault Value}
    (same : SameResult (Value.Alike m.heap m'.heap) r r') :
    Effect.Alike (m.finish r) (m'.finish r') := by
  cases same with
  | ok value => exact alike_push alike value
  | error f => exact ⟨.error f, alike⟩

theorem alike_unary (alike : m.Alike m') {f f' : Value → Except RunFault Value}
    (same : ∀ v v', Value.Alike m.heap m'.heap v v' →
      SameResult (Value.Alike m.heap m'.heap) (f v) (f' v')) :
    Effect.Alike (m.unary f) (m'.unary f') :=
  alike_pop alike fun v v' n n' value memory left right =>
    alike_finish memory (by rw [left, right]; exact same v v' value)

theorem alike_binary (alike : m.Alike m') {f f' : Value → Value → Except RunFault Value}
    (same : ∀ v v' w w', Value.Alike m.heap m'.heap v v' → Value.Alike m.heap m'.heap w w' →
      SameResult (Value.Alike m.heap m'.heap) (f v w) (f' v' w')) :
    Effect.Alike (m.binary f) (m'.binary f') :=
  alike_pop alike fun w w' n n' value memory left right =>
    alike_unary memory fun v v' other => by
      rw [left, right] at other ⊢
      exact same v v' w w' other value

theorem alike_logical (alike : m.Alike m') (op : Opcode) (f : Bool → Bool → Bool) :
    Effect.Alike (m.logical op f) (m'.logical op f) :=
  alike_pop alike fun w w' n n' value memory left right => by
    rw [value.truth_eq]
    cases truth op w' with
    | error e => exact ⟨.error e, memory⟩
    | ok y =>
      refine alike_unary memory fun v v' other => ?_
      rw [other.truth_eq]
      cases truth op v' with
      | error e => exact .error e
      | ok x => exact .ok ⟨_, .boolean _, .boolean _⟩

/-- Alike operands are two strings each, or fail alike. -/
theorem alike_handles {heap heap' : Heap} {v v' w w' : Value}
    (left : Value.Alike heap heap' v v') (right : Value.Alike heap heap' w w') :
    SameResult (fun p p' => Value.Alike heap heap' (.string p.1) (.string p'.1) ∧
      Value.Alike heap heap' (.string p.2) (.string p'.2)) (handles v w) (handles v' w') := by
  have left' := left
  have right' := right
  obtain ⟨a, means, means'⟩ := left
  obtain ⟨b, other, other'⟩ := right
  cases means with
  | text =>
    cases means' with | text =>
    cases other with
    | text => cases other' with | text => exact .ok ⟨left', right'⟩
    | _ => cases other'; exact .error _
  | _ => cases means'; cases other <;> cases other' <;> exact .error _

/-- Alike strings are joined on both heaps, to a string of one text. -/
theorem joined_of_alike {heap heap' : Heap} {x x' y y' : Handle}
    (left : Value.Alike heap heap' (.string x) (.string x'))
    (right : Value.Alike heap heap' (.string y) (.string y')) :
    ∃ r r' larger larger', heap.concat? x y = some (r, larger) ∧
      heap'.concat? x' y' = some (r', larger') ∧ larger.size = heap.size + 1 ∧
      larger'.size = heap'.size + 1 ∧
      (larger.size ≤ UInt32.size → larger'.size ≤ UInt32.size →
        Value.Alike larger larger' (.string r) (.string r')) := by
  obtain ⟨s, live, live'⟩ := left.text?
  obtain ⟨t, other, other'⟩ := right.text?
  have pushed {h : Heap} {a b : Handle} (first : h.text? a = some s) (second : h.text? b = some t) :
      ∃ r larger, h.concat? a b = some (r, larger) ∧ larger.size = h.size + 1 ∧
        (larger.size ≤ UInt32.size → larger.text? r = some (s ++ t)) := by
    have joined := Heap.concat?_eq_some_iff.2 ⟨s, t, first, second, rfl⟩
    exact ⟨_, _, joined, h.size_push _, Heap.text?_concat joined first second⟩
  obtain ⟨r, larger, joined, size, text⟩ := pushed live other
  obtain ⟨r', larger', joined', size', text'⟩ := pushed live' other'
  exact ⟨r, r', larger, larger', joined, joined', size, size', fun room room' =>
    ⟨_, .text (text room), .text (text' room')⟩⟩

theorem alike_concat (alike : m.Alike m') (room : m'.concat.2.heap.size ≤ UInt32.size) :
    Effect.Alike m.concat m'.concat := by
  obtain ⟨⟨values, limit⟩, heap⟩ := m
  obtain ⟨⟨values', limit'⟩, heap'⟩ := m'
  obtain ⟨same, values, size⟩ := alike
  obtain rfl : limit = limit' := same
  cases values with
  | nil => exact ⟨.error _, rfl, .nil, size⟩
  | cons right values =>
    cases values with
    | nil => exact ⟨.error _, rfl, .nil, size⟩
    | @cons v v' rest rest' left values =>
      rw [concat, pop_eq rfl, pop_eq rfl] at room ⊢
      rw [concat, pop_eq rfl, pop_eq rfl]
      simp only [leave, concatenation] at room ⊢
      have operands := alike_handles left right
      generalize handles _ _ = x at operands ⊢
      generalize handles _ _ = y at operands room ⊢
      cases operands with
      | error e => exact ⟨.error e, rfl, values, size⟩
      | @ok p p' both =>
        obtain ⟨r, r', larger, larger', joined, joined', more, more', value⟩ :=
          joined_of_alike both.1 both.2
        simp only [bind, Except.bind, joined, joined', pure, Except.pure] at room ⊢
        rw [heap_push] at room
        have ahead : larger.size ≤ larger'.size := by
          rw [more, more']
          exact Nat.add_le_add_right size 1
        have memory : Memory.Alike ⟨⟨rest, limit⟩, larger⟩ ⟨⟨rest', limit⟩, larger'⟩ :=
          ⟨rfl, values.imp fun _ _ alike =>
            alike.grows (Heap.grows_concat joined) (Heap.grows_concat joined'), ahead⟩
        exact alike_push memory (value (Nat.le_trans ahead room) room)

theorem alike_load (alike : m.Alike m') {c c' : Chunk} (chunk : c.Alike m.heap m'.heap c')
    (offset : Nat) (op : Opcode) : Effect.Alike (m.load c offset op) (m'.load c' offset op) := by
  have index : c.loadIndex? offset op = c'.loadIndex? offset op := by
    unfold Chunk.loadIndex?
    rw [chunk.code]
  unfold load
  rw [index]
  cases c'.loadIndex? offset op with
  | none => exact ⟨.error _, alike⟩
  | some index =>
    have constant := rel_getElem? chunk.constants index
    simp only [Array.getElem?_toList] at constant ⊢
    generalize c.constants[index]? = x at constant ⊢
    generalize c'.constants[index]? = y at constant ⊢
    cases constant with
    | none => exact ⟨.error _, alike⟩
    | some value => exact alike_push alike value

theorem alike_arithmetic (alike : m.Alike m') {op : BinaryOp}
    (numbers : op.isArithmetic = true) :
    Effect.Alike (m.binary (arithmetic (.ofBinary op)))
      (m'.binary (arithmetic (.ofBinary op))) := by
  refine alike_binary alike fun v v' w w' left right => ?_
  obtain ⟨a, means, means'⟩ := left
  obtain ⟨b, other, other'⟩ := right
  exact .of_agrees (agrees_applyArithmetic means other numbers)
    (agrees_applyArithmetic means' other' numbers)

theorem alike_execute (alike : m.Alike m') {c c' : Chunk} (chunk : c.Alike m.heap m'.heap c')
    (offset : Nat) (op : Opcode)
    (room : (m'.execute c' offset op).2.heap.size ≤ UInt32.size) :
    Effect.Alike (m.execute c offset op) (m'.execute c' offset op) := by
  cases op with
  | constant | constantLong => exact alike_load alike chunk offset _
  | pushTrue | pushFalse => exact alike_push alike ⟨_, .boolean _, .boolean _⟩
  | add => exact @alike_arithmetic _ _ alike .add rfl
  | subtract => exact @alike_arithmetic _ _ alike .subtract rfl
  | multiply => exact @alike_arithmetic _ _ alike .multiply rfl
  | divide => exact @alike_arithmetic _ _ alike .divide rfl
  | quotient => exact @alike_arithmetic _ _ alike .quotient rfl
  | remainder => exact @alike_arithmetic _ _ alike .remainder rfl
  | negate =>
    refine alike_unary alike fun v v' value => ?_
    obtain ⟨a, means, means'⟩ := value
    exact .of_agrees (agrees_negation means) (agrees_negation means')
  | not =>
    refine alike_unary alike fun v v' value => ?_
    obtain ⟨a, means, means'⟩ := value
    exact .of_agrees (agrees_not means) (agrees_not means')
  | and | or => exact alike_logical alike _ _
  | concat => exact alike_concat alike room
  | equal =>
    refine alike_binary alike fun v v' w w' left right => ?_
    rw [left.isEqual_eq right]
    exact .ok ⟨_, .boolean _, .boolean _⟩
  | notEqual =>
    refine alike_binary alike fun v v' w w' left right => ?_
    rw [left.isEqual_eq right]
    exact .ok ⟨_, .boolean _, .boolean _⟩
  | less | lessEqual | greater | greaterEqual =>
    refine alike_binary alike fun v v' w w' left right => ?_
    obtain ⟨a, means, means'⟩ := left
    obtain ⟨b, other, other'⟩ := right
    exact .of_agrees (agrees_comparison means other _) (agrees_comparison means' other' _)
  | finish =>
    refine alike_pop alike fun v v' n n' value memory left right => ?_
    rw [← left, ← right] at value
    exact ⟨.ok (.some value), memory⟩

end Memory

/-! ## Turns and runs -/

/-- The same place in the code, after as many steps, with alike memories. -/
structure RunState.Alike (s s' : RunState) : Prop where
  offset : s.offset = s'.offset
  steps : s.steps = s'.steps
  memory : s.memory.Alike s'.memory

/-- Both turns go on, or both end the run with the same error or alike values. -/
inductive Turn.Alike : Turn → Turn → Prop where
  | next {s s' : RunState} (state : s.Alike s') : Alike (.next s) (.next s')
  | halt {x x' : Except RunError Value} {s s' : RunState}
    (result : SameResult (Value.Alike s.memory.heap s'.memory.heap) x x') (state : s.Alike s') :
    Alike (.halt x s) (.halt x' s')

theorem Memory.alike_step {m m' : Memory} (alike : m.Alike m') {c c' : Chunk}
    (chunk : c.Alike m.heap m'.heap c') (offset : Nat) (byte : UInt8)
    (room : (m'.step c' offset byte).1.2.heap.size ≤ UInt32.size) :
    Effect.Alike (m.step c offset byte).1 (m'.step c' offset byte).1 ∧
      (m.step c offset byte).2 = (m'.step c' offset byte).2 := by
  unfold step at room ⊢
  generalize Opcode.ofByte? byte = found at room ⊢
  cases found with
  | none => exact ⟨⟨.error _, alike⟩, rfl⟩
  | some op => exact ⟨alike_execute alike chunk offset op room, rfl⟩

namespace RunState
variable {limits : MachineLimits} {s s' : RunState} {c c' : Chunk}

theorem alike_turn (alike : s.Alike s') (chunk : c.Alike s.memory.heap s'.memory.heap c')
    (room : (s'.turn limits c').memory.heap.size ≤ UInt32.size) :
    Turn.Alike (s.turn limits c) (s'.turn limits c') := by
  have line (offset : Nat) : c.lineAt? offset = c'.lineAt? offset := by
    rw [Chunk.lineAt?, Chunk.lineAt?, chunk.lines]
  unfold turn at room ⊢
  rw [chunk.code, alike.offset, alike.steps, line, line]
  generalize c'.code[s'.offset]? = found at room ⊢
  cases found with
  | none => exact .halt (.error _) alike
  | some byte =>
    dsimp only at room ⊢
    generalize limits.exceeded? (s'.steps + 1) = exceeded at room ⊢
    cases exceeded with
    | some f => exact .halt (.error _) ⟨rfl, rfl, alike.memory⟩
    | none =>
      have effects := Memory.alike_step alike.memory chunk s'.offset byte
      generalize s.memory.step c s'.offset byte = effect at effects ⊢
      generalize s'.memory.step c' s'.offset byte = effect' at effects room ⊢
      obtain ⟨⟨result, m⟩, width⟩ := effect
      obtain ⟨⟨result', m'⟩, width'⟩ := effect'
      have left : m'.heap.size ≤ UInt32.size := by
        rcases result' with f | _ | v <;> exact room
      obtain ⟨⟨result, memory⟩, rfl⟩ := effects left
      cases result with
      | error f => exact .halt (.error _) ⟨rfl, rfl, memory⟩
      | ok related =>
        cases related with
        | none => exact .next ⟨rfl, rfl, memory⟩
        | some value => exact .halt (.ok value) ⟨rfl, rfl, memory⟩

/-- What a turn adds to the heap is still there when the run is over. -/
theorem grows_turn_run (limits : MachineLimits) (c : Chunk) (s : RunState) :
    (s.turn limits c).memory.heap.Grows (s.run limits c).2.memory.heap := by
  rw [run_eq]
  cases s.turn limits c with
  | next t => exact grows_run limits c t
  | halt result t => exact .refl _

/-- Alike runs, by induction on their turns. -/
theorem alike_run (alike : s.Alike s') (chunk : c.Alike s.memory.heap s'.memory.heap c')
    (room : (s'.run limits c').2.memory.heap.size ≤ UInt32.size) :
    SameResult (Value.Alike (s.run limits c).2.memory.heap (s'.run limits c').2.memory.heap)
        (s.run limits c).1 (s'.run limits c').1 ∧
      (s.run limits c).2.Alike (s'.run limits c').2 := by
  fun_induction run limits c s generalizing s' with
  | case1 s result t h =>
    have turns := alike_turn alike chunk
      (Nat.le_trans (grows_turn_run limits c' s').size_le room)
    rw [h] at turns
    rw [run_eq limits c' s']
    generalize s'.turn limits c' = turn' at turns ⊢
    cases turns with
    | halt result state => exact ⟨result, state⟩
  | case2 s t h ih =>
    have turns := alike_turn alike chunk
      (Nat.le_trans (grows_turn_run limits c' s').size_le room)
    have grows := grows_turn limits c s
    have grows' := grows_turn limits c' s'
    rw [h] at turns grows
    rw [run_eq limits c' s'] at room ⊢
    generalize s'.turn limits c' = turn' at turns room grows' ⊢
    cases turns with
    | next state => exact ih state (chunk.grows grows grows') room

end RunState

/-! ## Sessions -/

/-- Two runs of sessions ended alike: with the same error or alike values, with the same status, and
with alike values left on their stacks. -/
structure Session.EndAlike {ε : Type} (x x' : Except ε Value × Session) : Prop where
  result : SameResult (Value.Alike x.2.heap x'.2.heap) x.1 x'.1
  status : x.2.status = x'.2.status
  stack : List.Forall₂ (Value.Alike x.2.heap x'.2.heap) x.2.stack.values x'.2.stack.values

namespace Session
variable {s s' : Session} {c c' : Chunk}

theorem EndAlike.flip {ε : Type} {x x' : Except ε Value × Session} (alike : EndAlike x x') :
    EndAlike x' x :=
  ⟨alike.result.flip.imp fun _ _ alike => alike.flip, alike.status.symm,
    .flip (alike.stack.imp fun _ _ alike => alike.flip)⟩

theorem grows_run (s : Session) (c : Chunk) : s.heap.Grows (s.run c).2.heap :=
  RunState.grows_run s.limits c (.start s.limits s.heap)

/-- Alike chunks run alike, if the heap of the second run is the larger one and has room. -/
theorem endAlike_of_le (limits : s.limits = s'.limits) (chunk : c.Alike s.heap s'.heap c')
    (le : s.heap.size ≤ s'.heap.size) (room : (s'.run c').2.heap.size ≤ UInt32.size) :
    EndAlike (s.run c) (s'.run c') := by
  have start : (RunState.start s.limits s.heap).Alike (.start s'.limits s'.heap) :=
    ⟨rfl, rfl, congrArg MachineLimits.stack limits, .nil, le⟩
  rw [run, run, Chunk.run, Chunk.run, limits]
  rw [limits] at start
  obtain ⟨result, state⟩ := RunState.alike_run start chunk room
  refine ⟨result, ?_, state.memory.values⟩
  dsimp only
  generalize (RunState.run s'.limits c _).1 = x at result ⊢
  generalize (RunState.run s'.limits c' _).1 = y at result ⊢
  cases result <;> rfl

/-- Alike chunks run alike, whichever heap is larger. -/
theorem endAlike_run (limits : s.limits = s'.limits) (chunk : c.Alike s.heap s'.heap c')
    (room : (s.run c).2.heap.size ≤ UInt32.size) (room' : (s'.run c').2.heap.size ≤ UInt32.size) :
    EndAlike (s.run c) (s'.run c') := by
  rcases Nat.le_total s.heap.size s'.heap.size with le | le
  · exact endAlike_of_le limits chunk le room'
  · exact (endAlike_of_le limits.symm chunk.flip le room).flip

end Session

end Pseudocode
