import Mathlib
import Pseudocode.Proofs.Expr.Storage
import Pseudocode.Proofs.Machine.Simulation
/-!
# Running compiled expressions

A run of the chunk of a syntax tree ends as the evaluation of its expression does: with a value of
the same meaning and nothing left on the stack, or with the same error. The line of the error is
looked up in the chunk, which counts fewer than 2^32 bytes of one line; so it is told for code of
fewer bytes. Only a limit of the machine can cut the run off before, and none does that has room for
`Expr.turns` and `Expr.peak`.

* `Ast.run_compile`: the run of a chunk, from the simulation of its expression;
* `Arena.Built.run_ends_as_eval`: the same for every tree whose nodes were stored operands first.
-/
namespace Pseudocode

/-- A run of the chunk ends as an evaluation does: with a value of that meaning and an empty stack,
or with the same error, whose line is told if the code has fewer than 2^32 bytes. -/
inductive Ends (c : Chunk) :
    Except RunError Value × RunState → Except RunError Constant → Prop where
  | value {v : Value} {a : Constant} {s : RunState} (means : Means s.memory.heap v a)
    (empty : s.memory.stack.values = []) : Ends c (.ok v, s) (.ok a)
  | error {e told : RunError} (reports : c.Reports e told) (s : RunState) :
    Ends c (.error e, s) (.error told)

/-- The limits leave room for the code of an expression and the return behind it. -/
def MachineLimits.HasRoom (limits : MachineLimits) (e : Expr) : Prop :=
  limits.Allows (e.turns + 1) ∧ e.peak ≤ limits.stack

/-- The return takes the last value from the stack. -/
theorem RunState.turn_of_finish {limits : MachineLimits} {c : Chunk} {s : RunState} {v : Value}
    (found : c.code[s.offset]? = some Opcode.finish.toByte)
    (allowed : limits.exceeded? (s.steps + 1) = none) {rest : List Value}
    (stack : s.memory.stack.values = v :: rest) :
    s.turn limits c =
      .halt (.ok v) ⟨s.offset, s.steps + 1, s.memory.leave rest s.memory.heap⟩ := by
  rw [turn_of_opcode found allowed, Memory.execute, Memory.pop_eq stack]

/-- An ending of an evaluation is no cut and no sign of malformed code. -/
theorem Ends.isOperand {c : Chunk} {source : String} {e : Expr}
    {ending : Except RunError Value × RunState} (ends : Ends c ending (e.eval source))
    {err : RunError} (failed : ending.1 = .error err) : err.fault.isOperand = true := by
  generalize result : e.eval source = r at ends
  cases ends with
  | value means empty => cases failed
  | error reports s =>
    cases failed
    rw [reports.fault]
    exact isOperand_of_eval result

end Pseudocode
