import Mathlib
import Pseudocode.Proofs.Machine.Lockstep
import Pseudocode.Proofs.Machine.Resources
import Pseudocode.Proofs.Session.Independence
/-!
# Nesting bounds the stack

How high the stack is behind an instruction hangs on the operation alone, not on the values or on
whether the run ends well. So every run of a compiled expression follows the heights of its course
until it is over. These are no higher than the expression is nested: for every value that waits on
the stack the parser had an operand position open.

* `Memory.settles_execute`: what an operation does to the height of the stack;
* `RunState.low_of_spelled`: a run of code that is laid out, by induction on its instructions;
* `Expr.peak_le_depth`: the stack gets no higher than the expression is nested;
* `nesting_bounds_stack`: runs of what the parser accepts.
-/
namespace Pseudocode

/-! ## Faults of operations -/

/-- A result that is no fault of a limit. -/
def Unlimited {α : Type} (result : Except RunFault α) : Prop :=
  ∀ f, result = .error f → f.isLimit = false

section
variable {α β : Type} {result : Except RunFault α} {op : Opcode} {a b : Value}

theorem Unlimited.ok (x : α) : Unlimited (.ok x) := nofun

theorem Unlimited.error {f : RunFault} (other : f.isLimit = false) :
    Unlimited (.error f : Except RunFault α) := by
  intro f' same
  cases same
  exact other

theorem Unlimited.map (unlimited : Unlimited result) (g : α → β) : Unlimited (result.map g) :=
  fun f failed => unlimited f (eq_error_of_map failed)

theorem Unlimited.bind (unlimited : Unlimited result) {next : α → Except RunFault β}
    (after : ∀ x, Unlimited (next x)) : Unlimited (result >>= next) := by
  cases result with
  | error f => exact .error (unlimited f rfl)
  | ok x => exact after x

theorem unlimited_checked (op : Opcode) (n : Int) : Unlimited (checked op n) := by
  unfold checked
  split
  · exact .ok _
  · exact .error rfl

theorem unlimited_integerResult (op : Opcode) (x y : Int64) : Unlimited (integerResult op x y) := by
  unfold integerResult
  split
  · exact unlimited_checked _ _
  · exact unlimited_checked _ _
  · exact unlimited_checked _ _
  all_goals
    split
    · exact .error rfl
    · exact unlimited_checked _ _

theorem unlimited_arithmetic (op : Opcode) (a b : Value) : Unlimited (arithmetic op a b) := by
  unfold arithmetic
  split
  · exact (unlimited_integerResult op _ _).map _
  · refine Unlimited.map ?_ _
    unfold realResult
    split <;> first | exact .ok _ | exact .error rfl
  · split <;> exact .error rfl

theorem unlimited_negation (a : Value) : Unlimited (negation a) := by
  unfold negation
  split
  · exact (unlimited_checked _ _).map _
  · exact .ok _
  · exact .error rfl

theorem unlimited_truth (op : Opcode) (a : Value) : Unlimited (truth op a) := by
  unfold truth
  split
  · exact .ok _
  · exact .error rfl

theorem unlimited_comparison (op : Opcode) (a b : Value) : Unlimited (comparison op a b) := by
  refine Unlimited.bind ?_ fun _ => .ok _
  unfold ordering
  split <;> first | exact .ok _ | exact .error rfl

theorem unlimited_concatenation (heap : Heap) (a b : Value) :
    Unlimited (concatenation heap a b) := by
  refine Unlimited.bind ?_ fun p => ?_
  · unfold handles
    split <;> first | exact .ok _ | exact .error rfl
  · dsimp only
    split
    · exact .ok _
    · exact .error rfl

end

/-! ## Heights behind operations -/

namespace Memory
variable {m : Memory} {after : Nat}

/-- An effect that goes on leaves so many values on the stack. If the run is over instead there are
no more values than before, and the limit of the stack ends it only where it forbids so many. -/
inductive Settles (m : Memory) (after : Nat) : Effect → Prop where
  | next {m' : Memory} (limit : m'.stack.limit = m.stack.limit) (height : m'.stack.size = after) :
    Settles m after (.ok none, m')
  | returned {v : Value} {m' : Memory} (low : m'.stack.size ≤ m.stack.size) :
    Settles m after (.ok (some v), m')
  | failed {f : RunFault} {m' : Memory} (low : m'.stack.size ≤ m.stack.size)
    (cause : f.isLimit = true → m.stack.limit < after) : Settles m after (.error f, m')

theorem settles_of_unlimited {f : RunFault} {m' : Memory} (low : m'.stack.size ≤ m.stack.size)
    (other : f.isLimit = false) : m.Settles after (.error f, m') :=
  .failed low fun limit => absurd limit (by rw [other]; exact Bool.false_ne_true)

theorem settles_push {rest : List Value} (low : rest.length ≤ m.stack.size) (heap : Heap)
    (v : Value) : m.Settles (rest.length + 1) ((m.leave rest heap).push v) := by
  rw [push_leave]
  split
  · rename_i full
    exact .failed low fun _ => Nat.lt_succ_of_le full
  · exact .next rfl rfl

theorem settles_finish {rest : List Value} (low : rest.length ≤ m.stack.size) (heap : Heap)
    {result : Except RunFault Value} (unlimited : Unlimited result) :
    m.Settles (rest.length + 1) ((m.leave rest heap).finish result) := by
  cases result with
  | ok v => exact settles_push low heap v
  | error f => exact settles_of_unlimited low (unlimited f rfl)

/-- Popping a value leaves the others to what follows. -/
theorem settles_pop {next : Value → Memory → Effect}
    (others : ∀ v rest, m.stack.values = v :: rest → m.Settles after (next v (m.leave rest m.heap))) :
    m.Settles after (m.pop next) := by
  cases stack : m.stack.values with
  | nil =>
    rw [pop, OperandStack.pop, stack]
    exact settles_of_unlimited (Nat.le_refl _) rfl
  | cons v rest =>
    rw [pop_eq stack]
    exact others v rest stack

/-- Popping two values, the right operand first. -/
theorem settles_pop_pop {next : Value → Value → Memory → Effect}
    (others : ∀ b a rest, m.stack.values = b :: a :: rest →
      m.Settles after (next b a (m.leave rest m.heap))) :
    m.Settles after (m.pop fun b m => m.pop (next b)) := by
  refine settles_pop fun b values stack => ?_
  have one : (m.leave values m.heap).stack.size ≤ m.stack.size := by
    rw [OperandStack.size, OperandStack.size, stack]
    exact Nat.le_succ _
  cases values with
  | nil => exact settles_of_unlimited one rfl
  | cons a rest => exact others b a rest stack

theorem settles_unary {f : Value → Except RunFault Value} (unlimited : ∀ a, Unlimited (f a)) :
    m.Settles m.stack.size (m.unary f) := by
  refine settles_pop fun v rest stack => ?_
  have height : m.stack.size = rest.length + 1 := by rw [OperandStack.size, stack, List.length_cons]
  rw [height]
  exact settles_finish (by omega) _ (unlimited v)

theorem size_of_two {b a : Value} {rest : List Value} (stack : m.stack.values = b :: a :: rest) :
    m.stack.size - 1 = rest.length + 1 ∧ rest.length ≤ m.stack.size := by
  rw [OperandStack.size, stack, List.length_cons, List.length_cons]
  omega

theorem settles_binary {f : Value → Value → Except RunFault Value}
    (unlimited : ∀ a b, Unlimited (f a b)) : m.Settles (m.stack.size - 1) (m.binary f) := by
  refine settles_pop_pop fun b a rest stack => ?_
  obtain ⟨height, low⟩ := size_of_two stack
  rw [height]
  exact settles_finish low _ (unlimited a b)

theorem settles_concat : m.Settles (m.stack.size - 1) m.concat := by
  refine settles_pop_pop fun b a rest stack => ?_
  obtain ⟨height, low⟩ := size_of_two stack
  rw [height]
  split
  · rename_i e failed
    exact settles_of_unlimited low (unlimited_concatenation _ _ _ _ failed)
  · exact settles_push low _ _

/-- The right operand is checked while the left one is still on the stack. -/
theorem settles_logical (op : Opcode) (f : Bool → Bool → Bool) :
    m.Settles (m.stack.size - 1) (m.logical op f) := by
  refine settles_pop fun b values stack => ?_
  have one : values.length ≤ m.stack.size := by
    rw [OperandStack.size, stack]
    exact Nat.le_succ _
  split
  · rename_i e failed
    exact settles_of_unlimited one (unlimited_truth _ _ _ failed)
  · cases values with
    | nil => exact settles_of_unlimited one rfl
    | cons a rest =>
      obtain ⟨height, low⟩ := size_of_two stack
      rw [height]
      exact settles_finish low _ ((unlimited_truth _ _).map _)

theorem settles_load (c : Chunk) (offset : Nat) (op : Opcode) :
    m.Settles (m.stack.size + 1) (m.load c offset op) := by
  unfold load
  split
  · exact settles_of_unlimited (Nat.le_refl _) rfl
  split
  · exact settles_of_unlimited (Nat.le_refl _) rfl
  · exact settles_push (Nat.le_refl _) m.heap _

end Memory

/-- The height of the stack behind an operation that goes on. -/
def Opcode.height (before : Nat) : Opcode → Nat
  | constant | constantLong | pushTrue | pushFalse => before + 1
  | negate | not => before
  | _ => before - 1

theorem Memory.settles_execute (m : Memory) (c : Chunk) (offset : Nat) (op : Opcode) :
    m.Settles (op.height m.stack.size) (m.execute c offset op) := by
  cases op with
  | constant | constantLong => exact settles_load c offset _
  | pushTrue | pushFalse => exact settles_push (Nat.le_refl _) m.heap _
  | negate => exact settles_unary unlimited_negation
  | not => exact settles_unary fun a => (unlimited_truth _ a).map _
  | add | subtract | multiply | divide | quotient | remainder =>
    exact settles_binary fun a b => unlimited_arithmetic _ a b
  | and | or => exact settles_logical _ _
  | concat => exact settles_concat
  | equal | notEqual => exact settles_binary fun _ _ => .ok _
  | less | lessEqual | greater | greaterEqual =>
    exact settles_binary fun a b => unlimited_comparison _ a b
  | finish =>
    refine settles_pop fun v rest stack => .returned ?_
    rw [OperandStack.size, OperandStack.size, stack]
    exact Nat.le_succ _

theorem Action.height_opcode (a : Action) (rank before : Nat) :
    (a.opcode rank).height before = a.height before := by
  cases a with
  | literal value =>
    cases value with
    | boolean b => cases b <;> rfl
    | _ =>
      simp only [opcode]
      split <;> rfl
  | unary op => cases op <;> rfl
  | binary op => cases op <;> rfl
  | finish => rfl

/-! ## Heights along a run -/

theorem MachineLimits.eq_stepLimit_of_exceeded? {limits : MachineLimits} {steps : Nat}
    {f : RunFault} (exceeded : limits.exceeded? steps = some f) : ∃ most, f = .stepLimit most := by
  obtain ⟨most, -, beyond⟩ := Option.bind_eq_some_iff.1 exceeded
  split at beyond <;> cases beyond
  exact ⟨most, rfl⟩

namespace RunState
variable {limits : MachineLimits} {c : Chunk} {s t : RunState} {most : Nat}

/-- The run from the state never has more than so many values on the stack, and the limit of the
stack ends it only where it forbids so many. -/
structure Low (limits : MachineLimits) (c : Chunk) (s : RunState) (most : Nat) : Prop where
  visited : ∀ t ∈ s.visited limits c, t.memory.stack.size ≤ most
  last : (s.run limits c).2.memory.stack.size ≤ most
  cause : ∀ n line, (s.run limits c).1 = .error ⟨.stackLimit n, line⟩ → limits.stack < most

theorem low_of_next (h : s.turn limits c = .next t) (low : s.memory.stack.size ≤ most)
    (rest : t.Low limits c most) : s.Low limits c most := by
  have run : s.run limits c = t.run limits c := by rw [run_eq, h]
  refine ⟨?_, run ▸ rest.last, run ▸ rest.cause⟩
  rw [visited_of_next h]
  exact List.forall_mem_cons.2 ⟨low, rest.visited⟩

theorem low_of_halt {result : Except RunError Value} (h : s.turn limits c = .halt result t)
    (low : s.memory.stack.size ≤ most) (last : t.memory.stack.size ≤ most)
    (cause : ∀ n line, result = .error ⟨.stackLimit n, line⟩ → limits.stack < most) :
    s.Low limits c most := by
  have run : s.run limits c = (result, t) := by rw [run_eq, h]
  refine ⟨?_, run ▸ last, run ▸ cause⟩
  rw [visited_of_halt h]
  exact List.forall_mem_singleton.2 low

/-- A run is low if the stack is low behind its first instruction and the run from there on is. -/
theorem low_of_found {op : Opcode} (found : c.code[s.offset]? = some op.toByte)
    (bounded : s.memory.stack.limit = limits.stack) (low : s.memory.stack.size ≤ most)
    (height : op.height s.memory.stack.size ≤ most)
    (rest : ∀ t : RunState, t.offset = s.offset + (1 + op.operandSize) →
      t.memory.stack.limit = limits.stack →
      t.memory.stack.size = op.height s.memory.stack.size → t.Low limits c most) :
    s.Low limits c most := by
  cases exceeded : limits.exceeded? (s.steps + 1) with
  | some f =>
    obtain ⟨n, rfl⟩ := limits.eq_stepLimit_of_exceeded? exceeded
    exact low_of_halt (turn_of_exceeded found exceeded) low low fun n line same => by cases same
  | none =>
    have turn := turn_of_opcode found exceeded
    have settles := Memory.settles_execute s.memory c s.offset op
    generalize s.memory.execute c s.offset op = effect at turn settles
    cases settles with
    | next limit same => exact low_of_next turn low (rest _ rfl (limit.trans bounded) same)
    | returned fewer =>
      exact low_of_halt turn low (Nat.le_trans fewer low) fun n line same => by cases same
    | failed fewer cause =>
      refine low_of_halt turn low (Nat.le_trans fewer low) fun n line same => ?_
      cases same
      exact bounded ▸ Nat.lt_of_lt_of_le (cause rfl) height

/-- The run of code that is laid out never gets above the heights of its course, by induction on the
instructions that are left. -/
theorem low_of_spelled {vs : List Visit} {offset rank last rank' : Nat}
    (spelled : c.Spelled offset rank vs last rank') (whole : last = c.size) :
    ∀ s : RunState, s.offset = offset → s.memory.stack.limit = limits.stack →
      s.memory.stack.size ≤ most → (∀ p ∈ Visit.course s.memory.stack.size vs, p.2 ≤ most) →
      s.Low limits c most := by
  induction spelled with
  | nil offset rank =>
    intro s here _ low _
    have missing : c.code[s.offset]? = none := Array.getElem?_eq_none (by simp [here, whole, Chunk.size])
    have turn : s.turn limits c = .halt (.error ⟨.endOfCode, c.lineAt? (s.offset - 1)⟩) s := by
      rw [RunState.turn, missing]
    exact low_of_halt turn low low fun n line same => by cases same
  | @cons v vs offset rank last rank' holds rest ih =>
    intro s here bounded low heights
    rw [Visit.course, List.forall_mem_cons] at heights
    subst here
    have height := v.action.height_opcode rank s.memory.stack.size
    refine low_of_found holds.code bounded low (height.trans_le heights.1)
      fun t ahead limit size => ?_
    have same : t.memory.stack.size = v.action.height s.memory.stack.size := size.trans height
    refine ih whole t ahead limit (same.trans_le heights.1) ?_
    rw [same]
    exact heights.2

end RunState

/-! ## Expressions -/

/-- Every value that waits on the stack has an operand position that was open where the expression
was read. -/
theorem Expr.peak_le_depth (e : Expr) : e.peak ≤ e.depth := by
  induction e with
  | literal line value => exact Nat.le_refl _
  | unary line op x ih => exact Nat.le_succ_of_le ih
  | group line x ih => exact Nat.le_succ_of_le ih
  | binary line op l r ihl ihr =>
    simp only [peak, depth]
    omega

/-- No run of the chunk of a tree that was parsed has more values on the stack than there may be
operand positions open. -/
theorem Ast.low_run {limits : ParseLimits} {arena : Arena} {source : String} {ast : Ast}
    {heap heap' : Heap} {c : Chunk} (parsed : parse limits arena source = .ok ast)
    (compiled : ast.compile heap = (.ok c, heap')) (machine : MachineLimits) (now : Heap) :
    (RunState.start machine now).Low machine c limits.nesting := by
  have nested : ast.expr.peak ≤ limits.nesting :=
    Nat.le_trans ast.expr.peak_le_depth (accepts_of_parse parsed).1.depth
  refine RunState.low_of_spelled (Ast.spelled_compile compiled) rfl _ rfl rfl (Nat.zero_le _) ?_
  intro p inside
  change p ∈ Visit.course 0 ast.expr.visits at inside
  rw [Expr.course_visits, List.mem_append, List.mem_singleton] at inside
  rcases inside with within | rfl
  · have := (ast.expr.peak_course 0).1 p within
    omega
  · exact Nat.zero_le _

theorem eq_error_of_mapError {result : Except RunError Value} {e : RunError}
    (failed : result.mapError EvalError.run = .error (.run e)) : result = .error e := by
  cases result with
  | ok v => cases failed
  | error e' =>
    cases failed
    rfl

/-- The chunk of a tree that the parser accepts keeps no more values on the stack than the parser
may have operand positions open, however its run ends: no turn begins or ends with more, and a limit
of so many values forbids no push. So a stack that has room for the nesting of the usual limits is
large enough for every source. -/
theorem nesting_bounds_stack :
    (∀ limits arena source ast, parse limits arena source = .ok ast →
      ∀ heap c heap', ast.compile heap = (.ok c, heap') → ∀ (machine : MachineLimits) (now : Heap),
        (∀ s ∈ (RunState.start machine now).visited machine c,
          s.memory.stack.size ≤ limits.nesting) ∧
        (c.run machine now).2.memory.stack.size ≤ limits.nesting ∧
        (limits.nesting ≤ machine.stack →
          ∀ n line, (c.run machine now).1 ≠ .error ⟨.stackLimit n, line⟩)) ∧
    ∀ (s : Session) (source : String), 256 ≤ s.limits.stack →
      ∀ n line, (s.eval source).1 ≠ .error (.run ⟨.stackLimit n, line⟩) := by
  constructor
  · intro limits arena source ast parsed heap c heap' compiled machine now
    obtain ⟨visited, last, cause⟩ := Ast.low_run parsed compiled machine now
    exact ⟨visited, last, fun room n line failed =>
      absurd (cause n line failed) (Nat.not_lt_of_le room)⟩
  · intro s source room n line failed
    rcases compiled : compileSource source s.heap with ⟨e | c, heap⟩
    · rw [Session.eval_of_refused compiled] at failed
      cases failed
    · rw [Session.eval_of_compiled compiled] at failed
      obtain ⟨ast, parsed, compiled⟩ := compileSource_eq_ok compiled
      have low := Ast.low_run parsed compiled s.limits heap
      exact absurd (low.cause n line (eq_error_of_mapError failed)) (Nat.not_lt_of_le room)

/-- Two groups on the right of operators: four values at once, in six operand positions, and the run
ends with an error of the types. -/
theorem nesting_bounds_stack_right :
    let source := "1-(2-(3&4))"
    ∃ ast c, parse ⟨6, 10⟩ .standard source = .ok ast ∧ ast.compile .new = (.ok c, .new) ∧
      (c.run ⟨6, none⟩ .new).1 = .error ⟨.operandType .concat .strings .integer, some 1⟩ ∧
      (∀ s ∈ (RunState.start ⟨6, none⟩ .new).visited ⟨6, none⟩ c, s.memory.stack.size ≤ 6) ∧
      ∀ n line, ((Session.start ⟨256, none⟩ .new).eval source).1 ≠
        .error (.run ⟨.stackLimit n, line⟩) := by
  intro source
  have ends : (parse ⟨6, 10⟩ .standard source).toOption.map (fun ast =>
      let (result, heap) := ast.compile .new
      (result.toOption.map fun c => (c.run ⟨6, none⟩ .new).1, heap)) =
        some (some (.error ⟨.operandType .concat .strings .integer, some 1⟩), .new) := by
    dsimp only [source]
    cbv
  obtain ⟨ast, parsed, compiled⟩ := Option.map_eq_some_iff.1 ends
  cases result : parse ⟨6, 10⟩ .standard source with
  | error e => rw [result] at parsed; cases parsed
  | ok ast' =>
    rw [result] at parsed
    cases parsed
    rcases whole : ast.compile .new with ⟨e | c, heap⟩
    · rw [whole] at compiled
      cases compiled
    · rw [whole] at compiled
      obtain ⟨run, rfl⟩ := Prod.mk.inj compiled
      have bound := nesting_bounds_stack.1 _ _ _ _ result _ _ _ whole ⟨6, none⟩ .new
      exact ⟨ast, c, rfl, whole, Option.some.inj run, bound.1,
        nesting_bounds_stack.2 (.start ⟨256, none⟩ .new) source (Nat.le_refl _)⟩

end Pseudocode
