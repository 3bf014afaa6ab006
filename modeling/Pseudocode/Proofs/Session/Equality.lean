import Pseudocode.Proofs.Session.Independence
/-!
# Equality

Two values are equal if they are the same, or strings of the same text. So equality is an
equivalence on any heap, also for reals that are no numbers and for handles of no string. What was
interned has one handle for a text, so for such strings equality is that of the handles. As strings
on the heap are left alone until it is cleared, so is the equality of the values that are there.

* `Value.isEqual_iff`: what equality is;
* `Session.follows_afterAll`: a session does with its heap what some calls would do;
* `Reachable.equality`: the laws of equality on the heap of a history.
-/
namespace Pseudocode

/-! ## What equality is -/

namespace Value
variable {heap : Heap} {v w u : Value}

/-- Equal values are the same, or strings of the same text. -/
theorem isEqual_iff : v.isEqual heap w = true ↔ v = w ∨ ∃ r s t, v = .string r ∧ w = .string s ∧
    heap.text? r = some t ∧ heap.text? s = some t := by
  cases v with
  | string r =>
    cases w with
    | string s =>
      by_cases same : r = s
      · simp [isEqual, same]
      · cases left : heap.text? r <;> cases right : heap.text? s <;>
          simp [isEqual, same, left, right]
    | _ => simp [isEqual]
  | _ => cases w <;> simp [isEqual]

theorem isEqual_string_iff {r s : Handle} {x y : String} (left : heap.text? r = some x)
    (right : heap.text? s = some y) :
    (string r).isEqual heap (.string s) = true ↔ x = y := by
  rw [(Means.text left).isEqual (.text right), decide_eq_true_iff, Constant.text.injEq]

theorem isEqual_equivalence (heap : Heap) :
    Equivalence fun v w : Value => v.isEqual heap w = true where
  refl v := isEqual_iff.2 (.inl rfl)
  symm {v w} equal := by
    rcases isEqual_iff.1 equal with rfl | ⟨r, s, t, left, right, live, live'⟩
    · exact equal
    · exact isEqual_iff.2 (.inr ⟨s, r, t, right, left, live', live⟩)
  trans {v w u} first second := by
    rcases isEqual_iff.1 first with rfl | ⟨r, s, t, left, rfl, live, live'⟩
    · exact second
    rcases isEqual_iff.1 second with rfl | ⟨s', q, t', same, right, live'', live'''⟩
    · exact first
    · obtain rfl := Value.string.inj same
      obtain rfl : t = t' := Option.some.inj (live'.symm.trans live'')
      exact isEqual_iff.2 (.inr ⟨r, q, t, left, right, live, live'''⟩)

/-- Values that are on the heap stay equal or unequal while it grows. -/
theorem isEqual_of_grows {heap' : Heap} (grows : heap.Grows heap') {a b : Constant}
    (left : Means heap v a) (right : Means heap w b) : v.isEqual heap' w = v.isEqual heap w := by
  rw [left.isEqual right, (left.grows grows).isEqual (right.grows grows)]

end Value

/-! ## What is done with a heap -/

namespace Session

theorem follows_run (s : Session) (c : Chunk) : s.heap.Follows (s.run c).2.heap :=
  RunState.follows_run s.limits c (.start s.limits s.heap)

theorem follows_eval (s : Session) (source : String) : s.heap.Follows (s.eval source).2.heap := by
  have compiling := follows_compileSource source s.heap
  rcases compiled : compileSource source s.heap with ⟨e | c, heap⟩ <;> rw [compiled] at compiling
  · rw [eval_of_refused compiled]
    exact compiling
  · rw [eval_of_compiled compiled]
    exact compiling.trans (follows_run { s with heap } c)

/-- A session does with its heap what some calls would do, until it clears it. -/
theorem follows_afterAll (s : Session) {calls : List SessionCall} (keep : .heap .clear ∉ calls) :
    s.heap.Follows (s.afterAll calls).heap := by
  induction calls generalizing s with
  | nil => exact .refl s.heap
  | cons call calls ih =>
    rw [List.mem_cons, not_or] at keep
    refine Heap.Follows.trans ?_ (ih (s.after call) keep.2)
    cases call with
    | eval source => exact s.follows_eval source
    | run c => exact s.follows_run c
    | heap call => exact s.heap.follows_after fun same => keep.1 (same ▸ rfl)

end Session

/-- **The laws of equality.** On a heap with any history equality is an equivalence: values are
equal if they are the same, or strings of the same text. Strings that are on the heap are equal just
if their texts are, and those whose handles were given for texts just if the handles are. What is
done later, calls of the heap that do not clear it, runs and evaluations in any order, leaves values
that are on the heap equal or unequal as they are, and leaves a heap with a history that goes on
from this one. Of the two instructions one pushes the answer and the other its negation. -/
theorem Reachable.equality {capacity : Nat} {past : History}
    (reachable : Reachable capacity past) :
    (Equivalence fun v w : Value => v.isEqual past.heap w = true) ∧
      (∀ v w : Value, v.isEqual past.heap w = true ↔ v = w ∨ ∃ r s t,
        v = .string r ∧ w = .string s ∧ past.heap.text? r = some t ∧ past.heap.text? s = some t) ∧
      (∀ r s x y, past.heap.text? r = some x → past.heap.text? s = some y →
        ((Value.string r).isEqual past.heap (.string s) = true ↔ x = y)) ∧
      (∀ x r y s, (x, r) ∈ past.interned → (y, s) ∈ past.interned →
        ((Value.string r).isEqual past.heap (.string s) = true ↔ r = s)) ∧
      (∀ limits calls, .heap .clear ∉ calls →
        let later := ((Session.start limits past.heap).afterAll calls).heap
        (∀ v w a b, Means past.heap v a → Means past.heap w b →
          v.isEqual later w = v.isEqual past.heap w) ∧
        (later.size ≤ UInt32.size → ∃ next, Reachable capacity next ∧ next.heap = later ∧
          past.interned <+: next.interned)) ∧
      ∀ a b rest limit c offset,
        let m : Memory := ⟨⟨b :: a :: rest, limit⟩, past.heap⟩
        m.execute c offset .equal =
          Memory.push ⟨⟨rest, limit⟩, past.heap⟩ (.boolean (a.isEqual past.heap b)) ∧
        m.execute c offset .notEqual =
          Memory.push ⟨⟨rest, limit⟩, past.heap⟩ (.boolean !(a.isEqual past.heap b)) := by
  have inv := reachable.inv
  refine ⟨Value.isEqual_equivalence past.heap, fun v w => Value.isEqual_iff,
    fun r s x y left right => Value.isEqual_string_iff left right,
    fun x r y s left right => ?_, fun limits calls keep => ?_,
    fun a b rest limit c offset => ⟨rfl, rfl⟩⟩
  · rw [Value.isEqual_string_iff (inv.texts x r left) (inv.texts y s right)]
    exact (inv.interning.equal x r y s left right).symm
  · have follows := (Session.start limits past.heap).follows_afterAll keep
    exact ⟨fun v w a b left right => Value.isEqual_of_grows follows.grows left right,
      reachable.follows follows⟩

/-- A text that was joined and interned, and the handle that a run gives to another. -/
theorem Reachable.equality_joined :
    let past := (((History.start 0).after (.copyString "a")).after (.concat ⟨0⟩ ⟨0⟩)).after
      (.copyString "aa")
    let joining : Chunk := ⟨#[0, 0, 0, 0, 14, 21], #[.string ⟨2⟩], #[⟨1, 6⟩]⟩
    let later := ((Session.start .standard past.heap).afterAll [.run joining]).heap
    Reachable 0 past ∧ .heap .clear ∉ [SessionCall.run joining] ∧
      past.heap.text? ⟨1⟩ = some "aa" ∧ past.heap.text? ⟨2⟩ = some "aa" ∧
      past.heap.text? ⟨3⟩ = none ∧ later.text? ⟨3⟩ = some "aaaa" ∧
      (Value.string ⟨1⟩).isEqual past.heap (.string ⟨2⟩) = true ∧
      (Value.string ⟨1⟩).isEqual later (.string ⟨2⟩) = true ∧
      (Value.string ⟨3⟩).isEqual past.heap (.string ⟨3⟩) = true := by
  intro past joining later
  have reachable : Reachable 0 past :=
    .after _ (.after _ (.after _ .start (by decide)) (by decide)) (by decide)
  have joined : past.heap.text? ⟨1⟩ = some "aa" := by decide
  have interned : past.heap.text? ⟨2⟩ = some "aa" := by decide
  have keep : .heap .clear ∉ [SessionCall.run joining] := by simp
  have longer : later.text? ⟨3⟩ = some "aaaa" := by
    dsimp only [later, past, joining]
    cbv
  obtain ⟨equivalence, -, byText, -, lasting, -⟩ := reachable.equality
  have same := (byText _ _ _ _ joined interned).2 rfl
  have still := (lasting .standard [.run joining] keep).1 _ _ _ _ (.text joined) (.text interned)
  exact ⟨reachable, keep, joined, interned, by cbv, longer, same, still.trans same,
    equivalence.refl _⟩

end Pseudocode
