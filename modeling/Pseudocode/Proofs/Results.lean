/-!
# Results read back

What is known of a computation that may fail, read back to the steps it was made of.

* `bind_eq_ok`, `bind_eq_error`: one step behind another;
* `eq_error_of_map`, `eq_ok_of_mapError`: a step behind which only the value, or only the error, is
  changed.
-/
namespace Pseudocode

variable {ε ε' α β : Type}

/-- A result is read back step by step. -/
theorem bind_eq_ok {r : Except ε α} {next : α → Except ε β} {y : β} :
    (r >>= next) = .ok y ↔ ∃ x, r = .ok x ∧ next x = .ok y := by
  constructor
  · intro whole
    cases r with
    | error e => cases whole
    | ok x => exact ⟨x, rfl, whole⟩
  · intro given
    obtain ⟨x, rfl, after⟩ := given
    exact after

/-- An error comes from the first step or from what follows it. -/
theorem bind_eq_error {r : Except ε α} {next : α → Except ε β} {e : ε} :
    (r >>= next) = .error e ↔ r = .error e ∨ ∃ x, r = .ok x ∧ next x = .error e := by
  constructor
  · intro whole
    cases r with
    | error e' => exact .inl (congrArg Except.error (Except.error.inj whole))
    | ok x => exact .inr ⟨x, rfl, whole⟩
  · intro given
    rcases given with rfl | ⟨x, rfl, after⟩
    · rfl
    · exact after

theorem eq_error_of_map {r : Except ε α} {g : α → β} {e : ε} (h : r.map g = .error e) :
    r = .error e := by
  cases r with
  | ok x => cases h
  | error e => exact congrArg Except.error (Except.error.inj h)

theorem eq_ok_of_mapError {r : Except ε α} {f : ε → ε'} {x : α} (h : r.mapError f = .ok x) :
    r = .ok x := by
  cases r with
  | error e => cases h
  | ok y => exact congrArg Except.ok (Except.ok.inj h)

end Pseudocode
