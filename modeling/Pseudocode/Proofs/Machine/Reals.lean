import Mathlib
import Pseudocode.Machine.Operation
import Pseudocode.Proofs.Number.Nearest
/-!
# Reals are rounded once

Arithmetic on finite reals has the exact result, rounded to the nearest number; a comparison has the
exact one. A sum is computed in units of the lower of two places, the other results on quotients, so
nothing is rounded before the end.

* `rounds_add`, `rounds_sub`, `rounds_mul`, `rounds_div`: the four operations;
* `toRat_neg`: what the sign bit does;
* `real_arithmetic_rounded`: all operations on two finite reals.
-/
namespace Pseudocode

namespace Binary64

/-! ## Operations -/

/-- The opposite number differs in its sign bit only. -/
theorem bits_neg (x : Binary64) :
    x.neg.negative = !x.negative ∧ x.neg.magnitude = x.magnitude := by
  have small := x.bits.toNat_lt
  have flipped : x.neg.bits.toNat = x.bits.toNat ^^^ 2 ^ 63 := by
    rw [neg, UInt64.toNat_xor]
    rfl
  have rest := Nat.xor_mod_two_pow (a := x.bits.toNat) (b := 2 ^ 63) (n := 63)
  have first := Nat.xor_div_two_pow (a := x.bits.toNat) (b := 2 ^ 63) (n := 63)
  rw [← flipped] at rest first
  unfold negative magnitude signBit
  rw [Nat.mod_self, Nat.xor_zero] at rest
  rw [Nat.div_self (by decide)] at first
  refine ⟨?_, rest⟩
  rw [← decide_not, decide_eq_decide]
  have bit : x.bits.toNat / 2 ^ 63 = 0 ∨ x.bits.toNat / 2 ^ 63 = 1 := by omega
  rcases bit with zero | one
  · rw [zero, Nat.zero_xor] at first
    omega
  · rw [one, Nat.xor_self] at first
    omega

theorem toRat_neg (x : Binary64) : x.neg.toRat = -x.toRat := by
  obtain ⟨sign, same⟩ := bits_neg x
  rw [x.neg.toRat_eq_abs, abs_toRat_congr same, sign, x.toRat_eq_abs]
  cases x.negative <;> simp

theorem isFinite_neg (x : Binary64) : x.neg.isFinite = x.isFinite := by
  rw [isFinite, (bits_neg x).2, isFinite]

theorem toRat_eq_ratio (x : Binary64) :
    x.toRat = (if x.negative then -1 else 1) * (x.ratio.1 / x.ratio.2) := by
  rw [toRat, (ratio_eq x).2]

theorem rounds_addFinite (x y : Binary64) : Rounds (addFinite x y) (x.toRat + y.toRat) := by
  have computed : addFinite x y =
      let p := min x.exponent y.exponent
      let sum := x.inUnits p + y.inUnits p
      if sum = 0 then zero (x.negative && y.negative)
      else ofRatio (sum < 0) (sum.natAbs <<< p.toNat) (1 <<< (-p).toNat) := rfl
  rw [computed, toRat_eq_inUnits x (min_le_left x.exponent y.exponent),
    toRat_eq_inUnits y (min_le_right x.exponent y.exponent), ← add_mul, ← Int.cast_add]
  generalize min x.exponent y.exponent = p
  dsimp only
  generalize x.inUnits p + y.inUnits p = sum
  split
  · rename_i cancels
    rw [cancels, Int.cast_zero, zero_mul]
    exact rounds_zero _
  · rename_i nonzero
    exact rounds_ofUnits nonzero p

section
variable {x y : Binary64} (finite : x.isFinite = true) (finite' : y.isFinite = true)
include finite finite'

theorem guardNaN_of_isFinite (op : Binary64 → Binary64 → Binary64) :
    guardNaN op x y = op x y := by
  rw [guardNaN, (not_isNaN_of_isFinite finite).1, (not_isNaN_of_isFinite finite').1]
  rfl

/-- The sum of finite numbers is rounded. -/
theorem rounds_add : Rounds (x.add y) (x.toRat + y.toRat) := by
  rw [add, guardNaN_of_isFinite finite finite', (not_isNaN_of_isFinite finite).2,
    (not_isNaN_of_isFinite finite').2]
  exact rounds_addFinite x y

/-- The difference of finite numbers is rounded. -/
theorem rounds_sub : Rounds (x.sub y) (x.toRat - y.toRat) := by
  rw [sub, guardNaN_of_isFinite finite finite', sub_eq_add_neg, ← toRat_neg]
  exact rounds_add finite (y.isFinite_neg.trans finite')

/-- The product of finite numbers is rounded. -/
theorem rounds_mul : Rounds (x.mul y) (x.toRat * y.toRat) := by
  have product : x.toRat * y.toRat = (if x.negative != y.negative then -1 else 1) *
      ((x.ratio.1 * y.ratio.1 : ℕ) / (x.ratio.2 * y.ratio.2 : ℕ)) := by
    rw [toRat_eq_ratio, toRat_eq_ratio, mul_mul_mul_comm, div_mul_div_comm]
    push_cast
    congr 1
    cases x.negative <;> cases y.negative <;> norm_num
  rw [mul, guardNaN_of_isFinite finite finite', (not_isNaN_of_isFinite finite).2,
    (not_isNaN_of_isFinite finite').2, product]
  exact rounds_ofRatio _ _ (Nat.mul_pos (ratio_eq x).1 (ratio_eq y).1)

/-- The quotient of finite numbers is rounded, unless the divisor is zero. -/
theorem rounds_div (nonzero : y.isZero = false) : Rounds (x.div y) (x.toRat / y.toRat) := by
  have quotient : x.toRat / y.toRat = (if x.negative != y.negative then -1 else 1) *
      ((x.ratio.1 * y.ratio.2 : ℕ) / (x.ratio.2 * y.ratio.1 : ℕ)) := by
    rw [toRat_eq_ratio, toRat_eq_ratio, mul_div_mul_comm, div_div_div_eq]
    push_cast
    congr 1
    cases x.negative <;> cases y.negative <;> norm_num
  rw [div, guardNaN_of_isFinite finite finite', (not_isNaN_of_isFinite finite).2,
    (not_isNaN_of_isFinite finite').2, nonzero, quotient]
  exact rounds_ofRatio _ _ (Nat.mul_pos (ratio_eq x).1 (ratio_pos nonzero))

end

end Binary64

/-! ## All operations on two reals -/

/-- The result is the exact number, rounded. -/
def IsRounded (exact : ℚ) (result : Except RunFault Value) : Prop :=
  ∃ r : Binary64, result = .ok (.real r) ∧ r.Rounds exact

/-- The operations on two finite reals round their exact results once, unless there is none since
the divisor is zero. The opposite number and the order are exact. -/
theorem real_arithmetic_rounded {x y : Binary64} (finite : x.isFinite = true)
    (finite' : y.isFinite = true) :
    IsRounded (x.toRat + y.toRat) (arithmetic .add (.real x) (.real y)) ∧
    IsRounded (x.toRat - y.toRat) (arithmetic .subtract (.real x) (.real y)) ∧
    IsRounded (x.toRat * y.toRat) (arithmetic .multiply (.real x) (.real y)) ∧
    (y.isZero = false → IsRounded (x.toRat / y.toRat) (arithmetic .divide (.real x) (.real y))) ∧
    (∃ r : Binary64, negation (.real x) = .ok (.real r) ∧ r.isFinite = true ∧
      r.toRat = -x.toRat) ∧
    ∀ op, comparison op (.real x) (.real y) =
      .ok (.boolean (meets op (compare x.toRat y.toRat))) := by
  refine ⟨⟨_, rfl, Binary64.rounds_add finite finite'⟩,
    ⟨_, rfl, Binary64.rounds_sub finite finite'⟩, ⟨_, rfl, Binary64.rounds_mul finite finite'⟩,
    fun nonzero => ⟨_, rfl, Binary64.rounds_div finite finite' nonzero⟩,
    ⟨_, rfl, x.isFinite_neg.trans finite, x.toRat_neg⟩, fun op => ?_⟩
  rw [comparison, ordering, Binary64.compare?_eq finite finite']
  rfl

end Pseudocode
