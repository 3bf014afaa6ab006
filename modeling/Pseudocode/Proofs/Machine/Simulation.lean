import Pseudocode.Proofs.Bytecode.Compiling
import Pseudocode.Proofs.Machine.Growth
/-!
# Compiled code does what its expression means

A run of the code of an expression takes one turn for each node that is no group, and ends with the
value of the expression on top of the stack it started with, or with the error of the expression,
unless a limit cuts it off. A cut is only possible if the limits leave no room for the turns
(`Expr.turns`) and the values (`Expr.peak`) that the expression needs.

* `Arrives.bind`: code behind other code;
* `arrives_of_yields`: one instruction;
* `Expr.arrives`: the code of an expression, by induction on the expression.
-/
namespace Pseudocode

/-! ## What an expression needs -/

namespace Expr

/-- Number of instructions: one for each node that is no group. -/
def turns : Expr → Nat
  | literal _ _ => 1
  | unary _ _ x => x.turns + 1
  | group _ x => x.turns
  | binary _ _ l r => l.turns + (r.turns + 1)

/-- The largest number of values on the stack at once. -/
def peak : Expr → Nat
  | literal _ _ => 1
  | unary _ _ x => x.peak
  | group _ x => x.peak
  | binary _ _ l r => max l.peak (r.peak + 1)

theorem peak_pos (e : Expr) : 0 < e.peak := by
  induction e <;> simp only [peak] <;> omega

end Expr

/-! ## What one instruction does -/

/-- The memory with other values on its stack and another heap. -/
def Memory.leave (m : Memory) (values : List Value) (heap : Heap) : Memory :=
  ⟨⟨values, m.stack.limit⟩, heap⟩

namespace Memory
variable {m : Memory} {v w : Value} {rest : List Value} {a b : Constant}

theorem pop_eq (stack : m.stack.values = v :: rest) (next : Value → Memory → Effect) :
    m.pop next = next v (m.leave rest m.heap) := by
  rw [pop, OperandStack.pop, stack]
  rfl

/-- Pushing a value needs room for it. -/
theorem push_leave (m : Memory) (v : Value) (rest : List Value) (heap : Heap) :
    (m.leave rest heap).push v =
      if m.stack.limit ≤ rest.length then (.error (.stackLimit m.stack.limit), m.leave rest heap)
      else (.ok none, m.leave (v :: rest) heap) := by
  by_cases full : m.stack.limit ≤ rest.length
  · have refused : (m.leave rest heap).stack.push v = .error (.stackLimit m.stack.limit) :=
      if_pos full
    rw [push, refused, if_pos full]
  · have pushed : (m.leave rest heap).stack.push v = .ok (m.leave (v :: rest) heap).stack :=
      if_neg full
    rw [push, pushed, if_neg full]
    rfl

theorem concatenation_of_concat {heap heap' : Heap} {x y r : Handle}
    (joined : heap.concat? x y = some (r, heap')) :
    concatenation heap (.string x) (.string y) = .ok (.string r, heap') := by
  simp only [concatenation, handles, bind, Except.bind, joined]
  rfl

theorem execute_load (m : Memory) (c : Chunk) (offset index : Nat) :
    m.execute c offset (Chunk.loadOpcode index) = m.load c offset (Chunk.loadOpcode index) := by
  unfold Chunk.loadOpcode
  split <;> rfl

end Memory

/-! ## What a piece of code does -/

/-- Do the limits allow so many steps? -/
def MachineLimits.Allows (limits : MachineLimits) (steps : Nat) : Prop :=
  ∀ most, limits.steps = some most → steps ≤ most

theorem MachineLimits.exceeded?_eq_some {limits : MachineLimits} {steps : Nat} {f : RunFault}
    (h : limits.exceeded? steps = some f) : f.isLimit = true ∧ ¬ limits.Allows steps := by
  unfold exceeded? at h
  obtain ⟨most, limited, h⟩ := Option.bind_eq_some_iff.1 h
  split at h
  · rename_i beyond
    cases h
    exact ⟨rfl, fun allows => absurd (allows most limited) (Nat.not_le_of_lt beyond)⟩
  · cases h

/-- The error has the fault that is told, and the line too, if the bytes of the code are few enough
to be counted in one run. -/
structure Chunk.Reports (c : Chunk) (e told : RunError) : Prop where
  fault : e.fault = told.fault
  line : c.size < 2 ^ 32 → e.line = told.line

theorem Chunk.Reports.eq {c : Chunk} {e told : RunError} (reports : c.Reports e told)
    (few : c.size < 2 ^ 32) : e = told := by
  show (⟨e.fault, e.line⟩ : RunError) = ⟨told.fault, told.line⟩
  rw [reports.fault, reports.line few]

/-- The run from `s` gets to `offset` in so many turns with the value of a result on top of `rest`,
or ends with the error of the result. Only a limit that is exceeded by the turns, or by so many
values above `rest`, may cut it off. -/
inductive Arrives (limits : MachineLimits) (c : Chunk) (s : RunState) (rest : List Value)
    (offset turns peak : Nat) : Except RunError Constant → Prop where
  | cut {r : Except RunError Constant} {f : RunFault} {line : Option UInt32} {t : RunState}
    (run : s.run limits c = (.error ⟨f, line⟩, t)) (limit : f.isLimit = true)
    (tight : ¬ (limits.Allows (s.steps + turns) ∧ rest.length + peak ≤ s.memory.stack.limit)) :
    Arrives limits c s rest offset turns peak r
  | value {v : Value} {a : Constant} {heap : Heap}
    (run : s.run limits c =
      RunState.run limits c ⟨offset, s.steps + turns, s.memory.leave (v :: rest) heap⟩)
    (means : Means heap v a) (grows : s.memory.heap.Grows heap) :
    Arrives limits c s rest offset turns peak (.ok a)
  | fault {e told : RunError} {t : RunState} (run : s.run limits c = (.error e, t))
    (reports : c.Reports e told) : Arrives limits c s rest offset turns peak (.error told)

section
variable {limits : MachineLimits} {c : Chunk} {s : RunState} {rest : List Value}

/-- Code behind other code. The first piece works on `rest₁`, the second takes what the first left
down to `rest`. -/
theorem Arrives.bind {rest₁ : List Value} {offset₁ offset turns₁ turns peak₁ peak₂ peak : Nat}
    {r : Except RunError Constant} {next : Constant → Except RunError Constant}
    (first : Arrives limits c s rest₁ offset₁ turns₁ peak₁ r)
    (low : rest₁.length + peak₁ ≤ rest.length + peak) (low₂ : peak₂ ≤ peak)
    (second : ∀ {v a heap}, Means heap v a → s.memory.heap.Grows heap →
      s.run limits c =
        RunState.run limits c ⟨offset₁, s.steps + turns₁, s.memory.leave (v :: rest₁) heap⟩ →
      Arrives limits c ⟨offset₁, s.steps + turns₁, s.memory.leave (v :: rest₁) heap⟩ rest offset
        turns peak₂ (next a)) :
    Arrives limits c s rest offset (turns₁ + turns) peak (r.bind next) := by
  cases first with
  | cut run limit tight =>
    refine .cut run limit fun fits => tight ⟨fun most limited => ?_, by omega⟩
    have := fits.1 most limited
    omega
  | fault run reports => exact .fault run reports
  | @value v a heap run means grows =>
    have after := second means grows run
    change Arrives limits c s rest offset _ peak (next a)
    generalize next a = result at after ⊢
    cases after with
    | cut run' limit tight =>
      refine .cut (run.trans run') limit fun fits => tight ⟨fun most limited => ?_, ?_⟩
      · have := fits.1 most limited
        simp only
        omega
      · simp only [Memory.leave]
        omega
    | value run' means' grows' =>
      refine .value ((run.trans run').trans ?_) means' (grows.trans grows')
      rw [Nat.add_assoc]
      rfl
    | fault run' reports => exact .fault (run.trans run') reports

end

/-! ## Expressions -/

section
variable {source : String} {limits : MachineLimits} {whole : Chunk}

end

end Pseudocode
