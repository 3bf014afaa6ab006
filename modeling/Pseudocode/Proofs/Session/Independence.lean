import Mathlib
import Pseudocode.Proofs.Bytecode.Likeness
/-!
# A session has no memory but its strings

What was done with a session before is of no account for the next source. The strings on its heap
make the handles differ, but the source has the value, the error, the status and the stack that it
has in a session that is new.

* `Session.eval_alike`: a source in any session and in a new one with its limits;
* `Session.eval_after_calls`: the same after any calls.
-/
namespace Pseudocode

/-- What may be done with a session. -/
inductive SessionCall where
  | eval (source : String)
  | run (c : Chunk)
  | heap (call : HeapCall)
  deriving DecidableEq, Repr

namespace Session

def after (s : Session) : SessionCall → Session
  | .eval source => (s.eval source).2
  | .run c => (s.run c).2
  | .heap call => { s with heap := s.heap.after call }

def afterAll (s : Session) (calls : List SessionCall) : Session := calls.foldl after s

theorem limits_eval (s : Session) (source : String) : (s.eval source).2.limits = s.limits := by
  unfold eval
  split <;> rfl

theorem limits_after (s : Session) (call : SessionCall) : (s.after call).limits = s.limits := by
  cases call with
  | eval source => exact s.limits_eval source
  | run c => rfl
  | heap call => rfl

/-- No call changes the limits, by induction on the calls. -/
theorem limits_afterAll (s : Session) (calls : List SessionCall) :
    (s.afterAll calls).limits = s.limits := by
  induction calls generalizing s with
  | nil => rfl
  | cons call calls ih => exact (ih (s.after call)).trans (s.limits_after call)

/-- A source that compiles is run on the heap that compiling leaves. -/
theorem eval_of_compiled {s : Session} {source : String} {c : Chunk} {heap : Heap}
    (compiled : compileSource source s.heap = (.ok c, heap)) :
    s.eval source = (({ s with heap }.run c).1.mapError .run, ({ s with heap }.run c).2) := by
  rw [eval, compiled]

/-- A source that does not compile only leaves its strings on the heap. -/
theorem eval_of_refused {s : Session} {source : String} {e : CompileError} {heap : Heap}
    (refused : compileSource source s.heap = (.error e, heap)) :
    s.eval source = (.error (.compile e), { s with heap, status := .failed }) := by
  rw [eval, refused]

/-- A source ended alike in two sessions: with the same error or with alike values, which are shown
alike, with the same status, and with alike stacks, unless it does not compile. -/
structure EvalAlike (source : String) (s s' : Session) : Prop where
  result : SameResult (Value.Alike (s.eval source).2.heap (s'.eval source).2.heap)
    (s.eval source).1 (s'.eval source).1
  shown : (s.eval source).1.map (Value.shown (s.eval source).2.heap) =
    (s'.eval source).1.map (Value.shown (s'.eval source).2.heap)
  status : (s.eval source).2.status = (s'.eval source).2.status
  stack : ∀ c, (compileSource source s'.heap).1 = .ok c →
    List.Forall₂ (Value.Alike (s.eval source).2.heap (s'.eval source).2.heap)
      (s.eval source).2.stack.values (s'.eval source).2.stack.values

/-- Alike results are shown alike. -/
theorem EvalAlike.of_result {source : String} {s s' : Session}
    (result : SameResult (Value.Alike (s.eval source).2.heap (s'.eval source).2.heap)
      (s.eval source).1 (s'.eval source).1)
    (status : (s.eval source).2.status = (s'.eval source).2.status)
    (stack : ∀ c, (compileSource source s'.heap).1 = .ok c →
      List.Forall₂ (Value.Alike (s.eval source).2.heap (s'.eval source).2.heap)
        (s.eval source).2.stack.values (s'.eval source).2.stack.values) :
    EvalAlike source s s' :=
  ⟨result, result.map_eq fun _ _ value => value.shown_eq, status, stack⟩

/-- Whatever is on the heap of a session, a source ends as in a new session. -/
theorem eval_alike {s : Session} {source : String}
    (room : (s.eval source).2.heap.size ≤ UInt32.size) :
    EvalAlike source (start s.limits .new) s := by
  -- Compiling is over before the run, so its strings have room too.
  have small : (compileSource source s.heap).2.size ≤ UInt32.size := by
    rcases compiled : compileSource source s.heap with ⟨_ | c, heap⟩
    · rwa [eval_of_refused compiled] at room
    · rw [eval_of_compiled compiled] at room
      exact Nat.le_trans (grows_run { s with heap } c).size_le room
  obtain ⟨result, below⟩ := alike_compileSource source s.heap small
  rcases compiled : compileSource source .new with ⟨x, heap⟩
  rcases compiled' : compileSource source s.heap with ⟨x', heap'⟩
  rw [compiled, compiled'] at result below
  cases result with
  | error e =>
    have ended := eval_of_refused (s := start s.limits .new) compiled
    have ended' := eval_of_refused compiled'
    refine .of_result ?_ ?_ fun c accepted => ?_
    · rw [ended, ended']
      exact .error _
    · rw [ended, ended']
    · rw [compiled'] at accepted
      cases accepted
  | @ok c c' chunk =>
    have ended := eval_of_compiled (s := start s.limits .new) compiled
    have ended' := eval_of_compiled compiled'
    rw [ended'] at room
    have alike : EndAlike ({ start s.limits .new with heap }.run c)
        ({ s with heap := heap' }.run c') :=
      endAlike_of_le rfl chunk below.size_le room
    refine .of_result ?_ ?_ fun c _ => ?_ <;> rw [ended, ended']
    · exact alike.result.mapError _
    · exact alike.status
    · exact alike.stack

/-- **What was done before does not count**: after any calls, a source ends as in a new session with
the same limits, if all its strings have handles of their own. -/
theorem eval_after_calls (limits : MachineLimits) (capacity : Nat) (calls : List SessionCall)
    (source : String)
    (room : (((start limits (.ofTableCapacity capacity)).afterAll calls).eval source).2.heap.size ≤
      UInt32.size) :
    EvalAlike source (start limits .new)
      ((start limits (.ofTableCapacity capacity)).afterAll calls) := by
  have same := limits_afterAll (start limits (.ofTableCapacity capacity)) calls
  have alike := eval_alike room
  rw [same] at alike
  exact alike

/-- A session that has joined the text before, has interned it too, and has a failed run behind it
that left a value on the stack. -/
theorem eval_after_calls_joined :
    let used := (start .standard (.ofTableCapacity 8)).afterAll
      [.eval "\"a\" & \"b\"", .heap (.copyString "ab"), .eval "1 +",
        .run ⟨#[0, 0], #[.string ⟨2⟩], #[⟨1, 2⟩]⟩]
    used.heap.texts = ["a", "b", "ab", "ab"] ∧ used.stack.values = [.string ⟨2⟩] ∧
      (used.eval "\"a\" & \"b\"").2.heap.size ≤ UInt32.size ∧
      EvalAlike "\"a\" & \"b\"" (start .standard .new) used :=
  ⟨by cbv, by cbv, by cbv, eval_after_calls .standard 8 _ _ (by cbv)⟩

end Session

end Pseudocode
