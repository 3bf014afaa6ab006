import Pseudocode.Proofs.Machine.Likeness
import Pseudocode.Proofs.Machine.Resources
/-!
# Limits only cut off

Two runs of one chunk on one heap, one of them under larger limits, do the same until a limit stops
the other. So a run that no limit stops is the run under any larger limits, and what a stopped run
put on the heap the larger run put there too.

* `Effect.CutFrom`: an effect and that under larger limits, with a lemma for each shape of operation;
* `RunState.cutFrom_turn`: one turn, where the limit of steps is checked first;
* `RunState.cutFrom_run`: runs, by induction on their turns;
* `Session.run_under_larger_limits`: what a session sees of it.
-/
namespace Pseudocode

/-! ## Limits -/

/-- The limits allow no more than the larger ones. -/
structure MachineLimits.AtMost (limits larger : MachineLimits) : Prop where
  stack : limits.stack ≤ larger.stack
  steps : ∀ most, larger.steps = some most → ∃ fewer, limits.steps = some fewer ∧ fewer ≤ most

theorem MachineLimits.AtMost.exceeded? {limits larger : MachineLimits}
    (atMost : limits.AtMost larger) {steps : Nat} (within : limits.exceeded? steps = none) :
    larger.exceeded? steps = none := by
  rw [exceeded?_eq_none_iff] at within ⊢
  intro most limited
  obtain ⟨fewer, limited', le⟩ := atMost.steps most limited
  exact Nat.le_trans (within fewer limited') le

/-! ## Effects -/

/-- The same heap and the same values, on a stack with at least as much room. -/
structure Memory.Narrower (m m' : Memory) : Prop where
  values : m.stack.values = m'.stack.values
  limit : m.stack.limit ≤ m'.stack.limit
  heap : m.heap = m'.heap

/-- The effect is the one under larger limits, or a limit has cut it off. Then the strings on the
heap are a front part of those that the other effect leaves. -/
inductive Effect.CutFrom : Effect → Effect → Prop where
  | same {r : Except RunFault (Option Value)} {m m' : Memory} (memory : m.Narrower m') :
    CutFrom (r, m) (r, m')
  | cut {f : RunFault} {m : Memory} {e : Effect} (limit : f.isLimit = true)
    (grows : m.heap.Grows e.2.heap) : CutFrom (.error f, m) e

namespace Memory
variable {m m' : Memory}

theorem cutFrom_push (narrower : m.Narrower m') (v : Value) :
    Effect.CutFrom (m.push v) (m'.push v) := by
  have heap := m'.heap_push v
  rw [← narrower.heap] at heap
  unfold push OperandStack.push at heap ⊢
  by_cases full : m.stack.limit ≤ m.stack.values.length
  · rw [if_pos full]
    refine .cut rfl ?_
    rw [heap]
    exact .refl _
  · have room : ¬ m'.stack.limit ≤ m'.stack.values.length := by
      rw [← narrower.values]
      exact fun full' => full (Nat.le_trans narrower.limit full')
    rw [if_neg full, if_neg room]
    exact .same ⟨congrArg (v :: ·) narrower.values, narrower.limit, narrower.heap⟩

theorem cutFrom_pop (narrower : m.Narrower m') {next next' : Value → Memory → Effect}
    (after : ∀ v {n n' : Memory}, n.Narrower n' →
      Effect.CutFrom (next v n) (next' v n')) :
    Effect.CutFrom (m.pop next) (m'.pop next') := by
  have values := narrower.values
  unfold pop OperandStack.pop
  generalize m'.stack.values = stack at values ⊢
  rw [values]
  cases stack with
  | nil => exact .same narrower
  | cons v vs => exact after v ⟨rfl, narrower.limit, narrower.heap⟩

theorem cutFrom_finish (narrower : m.Narrower m') (result : Except RunFault Value) :
    Effect.CutFrom (m.finish result) (m'.finish result) := by
  cases result with
  | ok v => exact cutFrom_push narrower v
  | error f => exact .same narrower

theorem cutFrom_unary (narrower : m.Narrower m') (f : Value → Except RunFault Value) :
    Effect.CutFrom (m.unary f) (m'.unary f) :=
  cutFrom_pop narrower fun a _ _ narrower => cutFrom_finish narrower (f a)

theorem cutFrom_binary (narrower : m.Narrower m') (f : Value → Value → Except RunFault Value) :
    Effect.CutFrom (m.binary f) (m'.binary f) :=
  cutFrom_pop narrower fun b _ _ narrower => cutFrom_unary narrower fun a => f a b

theorem cutFrom_logical (narrower : m.Narrower m') (op : Opcode) (f : Bool → Bool → Bool) :
    Effect.CutFrom (m.logical op f) (m'.logical op f) :=
  cutFrom_pop narrower fun b _ _ narrower => by
    cases truth op b with
    | error e => exact .same narrower
    | ok b => exact cutFrom_unary narrower _

/-- A joined string stays on the heap where the limit forbids to push its handle. -/
theorem cutFrom_concat (narrower : m.Narrower m') : Effect.CutFrom m.concat m'.concat :=
  cutFrom_pop narrower fun b _ _ narrower =>
    cutFrom_pop narrower fun a n n' narrower => by
      rw [narrower.heap]
      cases concatenation n'.heap a b with
      | error f => exact .same narrower
      | ok joined =>
        have narrower' : Narrower { n with heap := joined.2 } { n' with heap := joined.2 } :=
          ⟨narrower.values, narrower.limit, rfl⟩
        exact cutFrom_push narrower' joined.1

theorem cutFrom_load (narrower : m.Narrower m') (c : Chunk) (offset : Nat) (op : Opcode) :
    Effect.CutFrom (m.load c offset op) (m'.load c offset op) := by
  unfold load
  cases c.loadIndex? offset op with
  | none => exact .same narrower
  | some index =>
    dsimp only
    cases c.constants[index]? with
    | none => exact .same narrower
    | some v => exact cutFrom_push narrower v

theorem cutFrom_execute (narrower : m.Narrower m') (c : Chunk) (offset : Nat) (op : Opcode) :
    Effect.CutFrom (m.execute c offset op) (m'.execute c offset op) := by
  cases op with
  | constant | constantLong => exact cutFrom_load narrower c offset _
  | pushTrue | pushFalse => exact cutFrom_push narrower _
  | add | subtract | multiply | divide | quotient | remainder | less | lessEqual | greater
  | greaterEqual => exact cutFrom_binary narrower _
  | equal | notEqual =>
    rw [execute, execute, narrower.heap]
    exact cutFrom_binary narrower _
  | negate | not => exact cutFrom_unary narrower _
  | and | or => exact cutFrom_logical narrower _ _
  | concat => exact cutFrom_concat narrower
  | finish => exact cutFrom_pop narrower fun v _ _ narrower => .same narrower

theorem cutFrom_step (narrower : m.Narrower m') (c : Chunk) (offset : Nat) (byte : UInt8) :
    Effect.CutFrom (m.step c offset byte).1 (m'.step c offset byte).1 ∧
      (m.step c offset byte).2 = (m'.step c offset byte).2 := by
  unfold step
  split
  · exact ⟨.same narrower, rfl⟩
  · exact ⟨cutFrom_execute narrower c offset _, rfl⟩

end Memory

/-! ## Turns and runs -/

/-- The same place in the code, after as many steps, with the same heap and values. -/
structure RunState.Narrower (s s' : RunState) : Prop where
  offset : s.offset = s'.offset
  steps : s.steps = s'.steps
  memory : s.memory.Narrower s'.memory

/-- The turn is the one under larger limits, or a limit has ended the run. -/
inductive Turn.CutFrom : Turn → Turn → Prop where
  | next {s s' : RunState} (state : s.Narrower s') : CutFrom (.next s) (.next s')
  | halt {s s' : RunState} (result : Except RunError Value) (state : s.Narrower s') :
    CutFrom (.halt result s) (.halt result s')
  | cut {e : RunError} {s : RunState} {turn : Turn} (limit : e.fault.isLimit = true)
    (grows : s.memory.heap.Grows turn.memory.heap) : CutFrom (.halt (.error e) s) turn

namespace RunState
variable {limits larger : MachineLimits} {s s' : RunState}

theorem cutFrom_turn (atMost : limits.AtMost larger) (narrower : s.Narrower s') (c : Chunk) :
    Turn.CutFrom (s.turn limits c) (s'.turn larger c) := by
  have grows := s'.grows_turn larger c
  rw [← narrower.memory.heap] at grows
  unfold turn at grows ⊢
  rw [narrower.offset, narrower.steps]
  cases found : c.code[s'.offset]? with
  | none => exact .halt _ narrower
  | some byte =>
    rw [found] at grows
    dsimp only at grows ⊢
    cases exceeded : limits.exceeded? (s'.steps + 1) with
    | some f => exact .cut (MachineLimits.exceeded?_eq_some exceeded).1 grows
    | none =>
      -- the step is allowed, so the larger limits allow it too, and the effects decide
      rw [atMost.exceeded? exceeded]
      obtain ⟨effects, widths⟩ := Memory.cutFrom_step narrower.memory c s'.offset byte
      generalize s.memory.step c s'.offset byte = effect at effects widths ⊢
      generalize s'.memory.step c s'.offset byte = effect' at effects widths ⊢
      obtain ⟨effect, width⟩ := effect
      obtain ⟨effect', width'⟩ := effect'
      obtain rfl : width = width' := widths
      cases effects with
      | @same r m m' memory =>
        match r with
        | .ok none => exact .next ⟨rfl, rfl, memory⟩
        | .ok (some v) => exact .halt _ ⟨rfl, rfl, memory⟩
        | .error f => exact .halt _ ⟨rfl, rfl, memory⟩
      | cut limit grows =>
        match effect' with
        | (.ok none, _) => exact .cut limit grows
        | (.ok (some _), _) => exact .cut limit grows
        | (.error _, _) => exact .cut limit grows

/-- A run under larger limits, by induction on the turns of the other one. -/
theorem cutFrom_run (atMost : limits.AtMost larger) (narrower : s.Narrower s') (c : Chunk) :
    Turn.CutFrom (.halt (s.run limits c).1 (s.run limits c).2)
      (.halt (s'.run larger c).1 (s'.run larger c).2) := by
  fun_induction run limits c s generalizing s' with
  | case1 s result t h =>
    have turns := cutFrom_turn atMost narrower c
    have grows := s'.grows_turn_run larger c
    rw [h] at turns
    rw [run_eq larger c s'] at grows ⊢
    generalize s'.turn larger c = turn' at turns grows ⊢
    cases turns with
    | halt _ state => exact .halt result state
    | cut limit first =>
      -- the larger run goes on from here, and only adds to its heap
      exact .cut limit (first.trans grows)
  | case2 s t h ih =>
    have turns := cutFrom_turn atMost narrower c
    rw [h] at turns
    rw [run_eq larger c s']
    generalize s'.turn larger c = turn' at turns ⊢
    cases turns with
    | next state => exact ih state

end RunState

/-! ## Sessions -/

/-- A run that no limit stops is the run under larger limits. A run that a limit stops leaves on the
heap a front part of what the larger run leaves. -/
theorem Session.run_under_larger_limits (s s' : Session) (c : Chunk) (heap : s.heap = s'.heap)
    (atMost : s.limits.AtMost s'.limits) :
    ((∀ e, (s.run c).1 = .error e → e.fault.isLimit = false) →
      (s'.run c).1 = (s.run c).1 ∧ (s'.run c).2.heap = (s.run c).2.heap ∧
      (s'.run c).2.stack.values = (s.run c).2.stack.values ∧
      (s'.run c).2.status = (s.run c).2.status) ∧
    ∀ e, (s.run c).1 = .error e → e.fault.isLimit = true →
      (s.run c).2.heap.Grows (s'.run c).2.heap := by
  have start : (RunState.start s.limits s.heap).Narrower (.start s'.limits s'.heap) :=
    ⟨rfl, rfl, rfl, atMost.stack, heap⟩
  have runs := RunState.cutFrom_run atMost start c
  rw [run, run, Chunk.run, Chunk.run]
  generalize RunState.run s.limits c _ = ended at runs ⊢
  generalize RunState.run s'.limits c _ = ended' at runs ⊢
  obtain ⟨result, t⟩ := ended
  obtain ⟨result', t'⟩ := ended'
  cases runs with
  | halt _ state =>
    refine ⟨fun _ => ⟨rfl, state.memory.heap.symm, state.memory.values.symm, rfl⟩, ?_⟩
    intro e failed limit
    show Heap.Grows t.memory.heap t'.memory.heap
    rw [show t.memory.heap = t'.memory.heap from state.memory.heap]
    exact .refl _
  | @cut e _ _ limit grows =>
    refine ⟨fun other => ?_, fun _ _ _ => grows⟩
    exact absurd limit (by rw [other e rfl]; exact Bool.false_ne_true)

/-- Code that joins a string with itself, pushes a truth value and returns it. Two values and six
steps are enough for it; with three steps it is stopped behind the joined string. -/
theorem Session.run_under_larger_limits_joined :
    let c : Chunk := ⟨#[0, 0, 0, 0, 14, 2, 21], #[.string ⟨0⟩], #[⟨1, 7⟩]⟩
    let heap := (Heap.new.copyString "a").2
    let enough := Session.start ⟨2, some 6⟩ heap
    let short := Session.start ⟨2, some 3⟩ heap
    let standard := Session.start .standard heap
    enough.limits.AtMost standard.limits ∧ short.limits.AtMost standard.limits ∧
      (standard.run c).1 = .ok (.boolean true) ∧
      (standard.run c).2.stack.values = [.string ⟨1⟩] ∧
      (short.run c).1 = .error ⟨.stepLimit 3, some 1⟩ ∧ (short.run c).2.heap.size = 2 ∧
      (short.run c).2.heap.Grows (standard.run c).2.heap := by
  intro c heap enough short standard
  have wide (steps : Nat) : MachineLimits.AtMost ⟨2, some steps⟩ .standard :=
    ⟨show 2 ≤ 10000 by decide, nofun⟩
  have ran : (enough.run c).1 = .ok (.boolean true) := by
    dsimp only [enough, heap, c]; cbv
  have left : (enough.run c).2.stack.values = [.string ⟨1⟩] := by
    dsimp only [enough, heap, c]; cbv
  have stopped : (short.run c).1 = .error ⟨.stepLimit 3, some 1⟩ := by
    dsimp only [short, heap, c]; cbv
  have joined : (short.run c).2.heap.size = 2 := by
    dsimp only [short, heap, c]; cbv
  obtain ⟨result, -, stack, -⟩ :=
    (run_under_larger_limits enough standard c rfl (wide 6)).1 fun e failed => by
      rw [ran] at failed
      cases failed
  have grows := (run_under_larger_limits short standard c rfl (wide 3)).2 _ stopped rfl
  exact ⟨wide 6, wide 3, result.trans ran, stack.trans left, stopped, joined, grows⟩

end Pseudocode
