import Mathlib
import Pseudocode.Proofs.Number.SixDigits
/-!
# Fifty-three bits

What real arithmetic is held against, on the rationals: the exact number rounded to fifty-three
bits, of which none is behind the last place there is. Every finite number is one of these. A
magnitude counts them from zero on, so numbers compare as their signs and magnitudes do.

* `roundBinary_near`: no number of the format is nearer than the rounded one;
* `eq_of_toRat_eq`: a sign and a value make one number;
* `compare?_eq`: finite numbers compare as their values.
-/
namespace Pseudocode

/-- The place of the last bit of a number with fifty-three bits, unless that is behind the last
place there is. -/
def lastPlace (q : ℚ) : ℤ := max (Int.log 2 |q| - 52) (-1074)

/-- The number rounded to fifty-three bits, of which none is behind the last place there is. -/
def roundBinary (q : ℚ) : ℚ := roundEven (q / 2 ^ lastPlace q) * 2 ^ lastPlace q

theorem lastPlace_neg (q : ℚ) : lastPlace (-q) = lastPlace q := by
  rw [lastPlace, abs_neg, lastPlace]

theorem roundBinary_neg (q : ℚ) : roundBinary (-q) = -roundBinary q := by
  rw [roundBinary, lastPlace_neg, neg_div, roundEven_neg, roundBinary]
  push_cast
  ring

theorem roundBinary_zero : roundBinary 0 = 0 := by
  have zero : roundEven 0 = 0 := roundEven_unique (by norm_num) (by norm_num)
  rw [roundBinary, zero_div, zero, Int.cast_zero, zero_mul]

/-- No multiple of the last place is nearer than the rounded number. -/
theorem roundBinary_le (q : ℚ) (n : ℤ) :
    |q - roundBinary q| ≤ |q - n * 2 ^ lastPlace q| := by
  have unit : (0 : ℚ) < 2 ^ lastPlace q := by positivity
  have scaled (k : ℤ) :
      |q - k * 2 ^ lastPlace q| = |q / 2 ^ lastPlace q - k| * 2 ^ lastPlace q := by
    rw [← abs_of_pos unit, ← abs_mul, abs_of_pos unit, sub_mul, div_mul_cancel₀ _ unit.ne']
  rw [roundBinary, scaled, scaled]
  exact mul_le_mul_of_nonneg_right (roundEven_le _ n) unit.le

namespace Binary64

theorem hiddenBit_mul_zpow (p : ℤ) : (hiddenBit : ℚ) * 2 ^ p = 2 ^ (p + 52) := by
  rw [zpow_add₀ two_ne_zero, mul_comm]
  norm_num [hiddenBit]

/-! ## Significands and places -/

theorem significand_lt (x : Binary64) : x.significand < 2 * hiddenBit := by
  unfold significand hiddenBit
  split <;> omega

theorem le_exponent (x : Binary64) : -1074 ≤ x.exponent := by
  unfold exponent hiddenBit
  split <;> omega

theorem hiddenBit_le_significand {x : Binary64} (place : -1074 < x.exponent) :
    hiddenBit ≤ x.significand := by
  unfold exponent at place
  unfold significand
  split at place <;> rename_i first
  · exact absurd place (lt_irrefl _)
  · rw [if_neg first]
    exact Nat.le_add_left _ _

/-- A magnitude counts the places in front of the last one there is, and in each of them the
significands. -/
theorem magnitude_eq (x : Binary64) :
    (x.magnitude : ℤ) = (x.exponent + 1074) * hiddenBit + x.significand := by
  unfold exponent significand hiddenBit
  split <;> omega

theorem abs_toRat (x : Binary64) : |x.toRat| = x.significand * 2 ^ x.exponent := by
  have nonneg : (0 : ℚ) ≤ x.significand * 2 ^ x.exponent := by positivity
  rw [toRat, abs_mul, abs_of_nonneg nonneg]
  cases x.negative <;> norm_num

theorem toRat_eq_abs (x : Binary64) : x.toRat = (if x.negative then -1 else 1) * |x.toRat| := by
  rw [abs_toRat, toRat]

/-- A finite number in units of a place that is not in front of its own. -/
def inUnits (x : Binary64) (p : ℤ) : ℤ :=
  let m : ℤ := (x.significand <<< (x.exponent - p).toNat : ℕ)
  if x.negative then -m else m

theorem toRat_eq_inUnits (x : Binary64) {p : ℤ} (behind : p ≤ x.exponent) :
    x.toRat = x.inUnits p * 2 ^ p := by
  obtain ⟨k, same⟩ : ∃ k : ℕ, x.exponent = k + p := ⟨(x.exponent - p).toNat, by omega⟩
  rw [toRat, inUnits, same, add_sub_cancel_right, Int.toNat_natCast, Nat.shiftLeft_eq,
    zpow_add₀ two_ne_zero, zpow_natCast]
  cases x.negative <;> push_cast <;> simp <;> ring

/-! ## The nearest number -/

/-- What has its last place behind another is below the fifty-three bits of that. -/
theorem abs_toRat_lt_of_exponent_lt {x : Binary64} {p : ℤ} (behind : x.exponent < p) :
    |x.toRat| < hiddenBit * 2 ^ p := by
  have bits : (x.significand : ℚ) < 2 * hiddenBit := by exact_mod_cast x.significand_lt
  calc |x.toRat| = x.significand * 2 ^ x.exponent := x.abs_toRat
    _ < 2 * hiddenBit * 2 ^ x.exponent := mul_lt_mul_of_pos_right bits (by positivity)
    _ = hiddenBit * 2 ^ (x.exponent + 1) := by rw [zpow_add_one₀ two_ne_zero]; ring
    _ ≤ hiddenBit * 2 ^ p :=
      mul_le_mul_of_nonneg_left (zpow_le_zpow_right₀ one_le_two behind) (by positivity)

/-- **The nearest number.** No number of the format is nearer than the rounded one: it is a multiple
of the last place, or else not above the least power of two with that place. -/
theorem roundBinary_near (q : ℚ) (x : Binary64) : |q - roundBinary q| ≤ |q - x.toRat| := by
  rcases le_or_gt (lastPlace q) x.exponent with multiple | behind
  · rw [x.toRat_eq_inUnits multiple]
    exact roundBinary_le q _
  rcases eq_or_ne q 0 with rfl | nonzero
  · rw [roundBinary_zero, sub_zero, abs_zero]
    exact abs_nonneg _
  have reached : (hiddenBit : ℚ) * 2 ^ lastPlace q ≤ |q| := by
    have place : lastPlace q = Int.log 2 |q| - 52 := by
      have last := x.le_exponent
      unfold lastPlace at behind ⊢
      omega
    rw [hiddenBit_mul_zpow, place, sub_add_cancel]
    exact mod_cast Int.zpow_log_le_self one_lt_two (abs_pos.2 nonzero)
  obtain ⟨n, power⟩ : ∃ n : ℤ,
      |q - n * 2 ^ lastPlace q| = |q| - hiddenBit * 2 ^ lastPlace q := by
    rcases le_total 0 q with positive | negative
    · refine ⟨hiddenBit, ?_⟩
      rw [abs_of_nonneg positive] at reached ⊢
      exact abs_of_nonneg (sub_nonneg.2 reached)
    · refine ⟨-hiddenBit, ?_⟩
      rw [abs_of_nonpos negative] at reached ⊢
      push_cast
      rw [abs_of_nonpos (by linarith)]
      ring
  calc |q - roundBinary q| ≤ |q - n * 2 ^ lastPlace q| := roundBinary_le q n
    _ = |q| - hiddenBit * 2 ^ lastPlace q := power
    _ ≤ |q| - |x.toRat| := sub_le_sub_left (abs_toRat_lt_of_exponent_lt behind).le _
    _ ≤ |q - x.toRat| := abs_sub_abs_le_abs_sub q x.toRat

/-! ## Order -/

theorem abs_toRat_pos {x : Binary64} (pos : 0 < x.magnitude) : 0 < |x.toRat| := by
  have nonzero : x.isZero = false := decide_eq_false pos.ne'
  have := significand_pos nonzero
  rw [abs_toRat]
  positivity

/-- The larger magnitude is that of the larger number: at the same place it has the larger
significand, and a significand in front of the last place is above all that are behind it. -/
theorem abs_toRat_lt {x y : Binary64} (less : x.magnitude < y.magnitude) :
    |x.toRat| < |y.toRat| := by
  have counted := x.magnitude_eq
  have counted' := y.magnitude_eq
  rcases lt_trichotomy x.exponent y.exponent with behind | same | front
  · have full : (hiddenBit : ℚ) ≤ y.significand := by
      exact_mod_cast hiddenBit_le_significand (x.le_exponent.trans_lt behind)
    calc |x.toRat| < hiddenBit * 2 ^ y.exponent := abs_toRat_lt_of_exponent_lt behind
      _ ≤ y.significand * 2 ^ y.exponent := mul_le_mul_of_nonneg_right full (by positivity)
      _ = |y.toRat| := y.abs_toRat.symm
  · rw [same] at counted
    rw [abs_toRat, abs_toRat, same, mul_lt_mul_iff_left₀ (by positivity), Nat.cast_lt]
    omega
  · have full := hiddenBit_le_significand (y.le_exponent.trans_lt front)
    have short := y.significand_lt
    unfold hiddenBit at *
    omega

/-- Numbers of one magnitude have the same size. -/
theorem abs_toRat_congr {x y : Binary64} (same : x.magnitude = y.magnitude) :
    |x.toRat| = |y.toRat| := by
  rw [abs_toRat, abs_toRat, significand, exponent, same, ← significand, ← exponent]

/-- The place of a number in the order of all numbers tells on which side of another it is. -/
theorem toRat_lt {x y : Binary64} (less : x.place < y.place) : x.toRat < y.toRat := by
  unfold place at less
  rw [x.toRat_eq_abs, y.toRat_eq_abs]
  have size := abs_nonneg x.toRat
  have size' := abs_nonneg y.toRat
  generalize x.negative = negative at *
  generalize y.negative = negative' at *
  cases negative <;> cases negative' <;>
    simp only [if_true, Bool.false_eq_true, if_false, one_mul, neg_one_mul] at less ⊢
  case false.false => exact abs_toRat_lt (by omega)
  case false.true => omega
  case true.false =>
    rcases Nat.eq_zero_or_pos x.magnitude with zero | pos
    · have above := abs_toRat_pos (x := y) (by omega)
      linarith
    · have below := abs_toRat_pos pos
      linarith
  case true.true => exact neg_lt_neg (abs_toRat_lt (by omega))

/-- The two zeros have one place and one value. -/
theorem toRat_congr {x y : Binary64} (same : x.place = y.place) : x.toRat = y.toRat := by
  have size := abs_toRat_congr (x := x) (y := y) (by unfold place at same; grind)
  rw [x.toRat_eq_abs, y.toRat_eq_abs, size]
  by_cases sign : x.negative = y.negative
  · rw [sign]
  · have zero : y.magnitude = 0 := by unfold place at same; grind
    have none : |y.toRat| = 0 := by
      rw [abs_toRat, significand, zero]
      norm_num [hiddenBit]
    rw [none, mul_zero, mul_zero]

/-- **Order.** Finite numbers compare as their values. -/
theorem compare?_eq {x y : Binary64} (finite : x.isFinite = true) (finite' : y.isFinite = true) :
    compare? x y = some (compare x.toRat y.toRat) := by
  rw [compare?, (not_isNaN_of_isFinite finite).1, (not_isNaN_of_isFinite finite').1]
  refine congrArg some ?_
  rcases lt_trichotomy x.place y.place with less | same | more
  · rw [compare_lt_iff_lt.2 less, compare_lt_iff_lt.2 (toRat_lt less)]
  · rw [compare_eq_iff_eq.2 same, compare_eq_iff_eq.2 (toRat_congr same)]
  · rw [compare_gt_iff_gt.2 more, compare_gt_iff_gt.2 (toRat_lt more)]

/-! ## One number for a value -/

/-- A number is its sign and its magnitude. -/
theorem ofMagnitude_magnitude (x : Binary64) : ofMagnitude x.negative x.magnitude = x := by
  have small := x.bits.toNat_lt
  obtain ⟨bits⟩ := x
  unfold ofMagnitude negative magnitude signBit
  rw [mk.injEq, ← UInt64.toNat_inj, UInt64.toNat_ofNat']
  dsimp only at *
  split <;> rename_i sign <;> simp only [decide_eq_true_eq] at sign <;> omega

/-- Numbers of one sign and one value are the same. -/
theorem eq_of_toRat_eq {x y : Binary64} (sign : x.negative = y.negative)
    (same : x.toRat = y.toRat) : x = y := by
  have magnitude : x.magnitude = y.magnitude := by
    rcases lt_trichotomy x.magnitude y.magnitude with less | equal | more
    · exact absurd (congrArg _ same) (abs_toRat_lt less).ne
    · exact equal
    · exact absurd (congrArg _ same) (abs_toRat_lt more).ne'
  rw [← x.ofMagnitude_magnitude, sign, magnitude, y.ofMagnitude_magnitude]

end Binary64

end Pseudocode
