import Mathlib
import Pseudocode.Number.RealText
/-!
# Significant digits

The exact rounding that shown numbers are held against, on the rationals: to the nearest integer, a
half to the even neighbour, in units of the last of so many digits. The digits of a quotient are
computed on natural numbers; they are those of this rounding. A number a little below a power of ten
is carried to it. When it is rounded a second time, to places behind the point, the unit is ten
times larger, and it is carried again.

* `roundEven_near`, `roundEven_even`, `roundEven_unique`: what the nearest integer is;
* `roundDiv_eq`: quotients of natural numbers are rounded to it, in units of any place;
* `decimalExponent_eq`: the place of the first digit;
* `sixDigits_eq`: the six digits;
* `roundDiv_places`: the second rounding makes the same digits as the first.
-/
namespace Pseudocode

/-! ## The nearest integer -/

/-- The integer nearest to a number; a half goes to the even neighbour. -/
def roundEven (q : ℚ) : ℤ :=
  if q - ⌊q⌋ < 1 / 2 then ⌊q⌋ else if 1 / 2 < q - ⌊q⌋ then ⌊q⌋ + 1 else ⌊q⌋ + ⌊q⌋ % 2

theorem roundEven_near (q : ℚ) : |q - roundEven q| ≤ 1 / 2 := by
  have low := Int.floor_le q
  have high := Int.lt_floor_add_one q
  unfold roundEven
  split_ifs with below above
  · rw [abs_le]
    constructor <;> linarith
  · push_cast
    rw [abs_le]
    constructor <;> linarith
  · rcases Int.emod_two_eq_zero_or_one ⌊q⌋ with parity | parity <;> rw [parity] <;>
      push_cast <;> rw [abs_le] <;> constructor <;> linarith

theorem roundEven_even {q : ℚ} (half : |q - roundEven q| = 1 / 2) : Even (roundEven q) := by
  have low := Int.floor_le q
  have high := Int.lt_floor_add_one q
  unfold roundEven at half ⊢
  split_ifs at half ⊢ with below above
  · rw [abs_of_nonneg (by linarith)] at half
    linarith
  · push_cast at half
    rw [abs_of_neg (by linarith)] at half
    linarith
  · rw [Int.even_iff]
    omega

/-- No other integer is as near, or as near and even. -/
theorem roundEven_unique {q : ℚ} {n : ℤ} (near : |q - n| ≤ 1 / 2)
    (even : |q - n| = 1 / 2 → Even n) : roundEven q = n := by
  have near' := roundEven_near q
  have even' : |q - roundEven q| = 1 / 2 → Even (roundEven q) := roundEven_even
  generalize roundEven q = r at *
  rw [abs_le] at near near'
  have apart : r - n ≤ 1 ∧ n - r ≤ 1 := by
    constructor
    · have : (r : ℚ) - n ≤ 1 := by linarith
      exact_mod_cast this
    · have : (n : ℚ) - r ≤ 1 := by linarith
      exact_mod_cast this
  rcases lt_trichotomy r n with less | same | more
  · -- both are at a half, and one of two neighbours is odd
    obtain rfl : n = r + 1 := by omega
    push_cast at *
    have := even' (by rw [abs_of_nonneg] <;> linarith)
    have := even (by rw [abs_of_nonpos] <;> linarith)
    grind
  · exact same
  · obtain rfl : r = n + 1 := by omega
    push_cast at *
    have := even' (by rw [abs_of_nonpos] <;> linarith)
    have := even (by rw [abs_of_nonneg] <;> linarith)
    grind

/-- No other integer is nearer. -/
theorem roundEven_le (q : ℚ) (n : ℤ) : |q - roundEven q| ≤ |q - n| := by
  by_contra less
  rw [not_le] at less
  have close := less.trans_le (roundEven_near q)
  rw [roundEven_unique close.le fun half => absurd half close.ne] at less
  exact less.false

/-- What is between two integers is rounded to an integer between them. -/
theorem roundEven_bounds {q : ℚ} {a b : ℤ} (low : a ≤ q) (high : q ≤ b) :
    a ≤ roundEven q ∧ roundEven q ≤ b := by
  have near := abs_le.1 (roundEven_near q)
  constructor <;> apply Int.le_of_lt_add_one <;> rw [← Int.cast_lt (R := ℚ)] <;> push_cast <;>
    linarith

theorem roundEven_neg (q : ℚ) : roundEven (-q) = -roundEven q := by
  have same : |-q - (-roundEven q : ℤ)| = |q - roundEven q| := by
    rw [← abs_neg]
    push_cast
    ring_nf
  refine roundEven_unique (same ▸ roundEven_near q) fun half => ?_
  rw [same] at half
  exact (roundEven_even half).neg

/-- A quotient of natural numbers is rounded in the same way. -/
theorem roundEven_div (num : ℕ) {den : ℕ} (pos : 0 < den) :
    roundEven ((num : ℚ) / den) = roundDiv num den := by
  have pos' : (0 : ℚ) < den := by exact_mod_cast pos
  have whole : ⌊(num : ℚ) / den⌋ = (num / den : ℕ) := Rat.floor_natCast_div_natCast num den
  have rest : (num : ℚ) / den - (num / den : ℕ) = (num % den : ℕ) / den := by
    have split : (num : ℚ) = den * (num / den : ℕ) + (num % den : ℕ) := by
      exact_mod_cast (Nat.div_add_mod num den).symm
    field_simp
    linarith
  have below : (num % den : ℕ) / (den : ℚ) < 1 / 2 ↔ 2 * (num % den) < den := by
    rw [div_lt_div_iff₀ pos' two_pos]
    norm_cast
    omega
  have above : 1 / 2 < (num % den : ℕ) / (den : ℚ) ↔ den < 2 * (num % den) := by
    rw [div_lt_div_iff₀ two_pos pos']
    norm_cast
    omega
  unfold roundEven roundDiv
  simp only [whole, Int.cast_natCast, rest, below, above]
  split_ifs <;> push_cast <;> omega

/-- A quotient in units of a place, as the powers on both sides make it. -/
theorem scaled_div (num den : ℕ) {b : ℕ} (pos : 0 < b) (p : ℤ) :
    ((num * b ^ (-p).toNat : ℕ) : ℚ) / (den * b ^ p.toNat : ℕ) = num / den / (b : ℚ) ^ p := by
  have base : (b : ℚ) ≠ 0 := by exact_mod_cast pos.ne'
  push_cast
  rcases le_total 0 p with large | small
  · obtain ⟨k, rfl⟩ := Int.eq_ofNat_of_zero_le large
    simp [div_div]
  · obtain ⟨k, rfl⟩ : ∃ k : ℕ, p = -k := ⟨(-p).toNat, by omega⟩
    simp [zpow_neg, div_eq_mul_inv, mul_right_comm]

theorem roundDiv_eq (num : ℕ) {den b : ℕ} (posDen : 0 < den) (pos : 0 < b) (p : ℤ) :
    (roundDiv (num * b ^ (-p).toNat) (den * b ^ p.toNat) : ℤ) =
      roundEven (num / den / (b : ℚ) ^ p) := by
  rw [← scaled_div num den pos, roundEven_div _ (Nat.mul_pos posDen (Nat.pow_pos pos))]

/-! ## Significant digits -/

/-- A number between two powers has the place of the lower one. -/
theorem log_eq {b : ℕ} (large : 1 < b) {q : ℚ} {e : ℤ} (low : (b : ℚ) ^ e ≤ q)
    (high : q < (b : ℚ) ^ (e + 1)) : Int.log b q = e := by
  have pos : 0 < q := (zpow_pos (by exact_mod_cast Nat.zero_lt_of_lt large) e).trans_le low
  apply le_antisymm
  · exact Int.le_of_lt_add_one ((Int.lt_zpow_iff_log_lt large pos).1 high)
  · exact (Int.zpow_le_iff_le_log large pos).1 low

/-- The place of the first digit that is not zero, as an exponent of ten. -/
def leadingPlace (q : ℚ) : ℤ := Int.log 10 |q|

/-- The number rounded to so many significant digits. -/
def roundSignificant (digits : ℕ) (q : ℚ) : ℚ :=
  roundEven (q / 10 ^ (leadingPlace q + 1 - digits)) * 10 ^ (leadingPlace q + 1 - digits)

theorem leadingPlace_neg (q : ℚ) : leadingPlace (-q) = leadingPlace q := by
  rw [leadingPlace, abs_neg, leadingPlace]

theorem roundSignificant_neg (digits : ℕ) (q : ℚ) :
    roundSignificant digits (-q) = -roundSignificant digits q := by
  rw [roundSignificant, leadingPlace_neg, neg_div, roundEven_neg, roundSignificant]
  push_cast
  ring

theorem leadingPlace_eq {q : ℚ} {e : ℤ} (low : 10 ^ e ≤ q) (high : q < 10 ^ (e + 1)) :
    leadingPlace q = e := by
  have pos : 0 < q := (zpow_pos (by norm_num) e).trans_le low
  rw [leadingPlace, abs_of_pos pos]
  exact log_eq (by norm_num) (mod_cast low) (mod_cast high)

theorem zpow_leadingPlace_le {q : ℚ} (pos : 0 < q) : 10 ^ leadingPlace q ≤ q := by
  rw [leadingPlace, abs_of_pos pos]
  exact_mod_cast Int.zpow_log_le_self (by norm_num) pos

theorem lt_zpow_leadingPlace {q : ℚ} (pos : 0 < q) : q < 10 ^ (leadingPlace q + 1) := by
  rw [leadingPlace, abs_of_pos pos]
  exact_mod_cast Int.lt_zpow_succ_log_self (by norm_num) q

namespace Binary64

/-- The place that is counted on the digits of a quotient, or of its inverse. -/
theorem decimalExponent_eq {num den : ℕ} (posNum : 0 < num) (posDen : 0 < den) :
    decimalExponent num den = leadingPlace (num / den) := by
  have pos : (0 : ℚ) < den := by exact_mod_cast posDen
  unfold decimalExponent
  split
  · rename_i large
    have nonzero : num / den ≠ 0 := Nat.pos_iff_ne_zero.1 (Nat.div_pos large posDen)
    have low := Decimal.log10_le nonzero
    have high := Decimal.lt_log10 (num / den)
    generalize Decimal.log10 (num / den) = k at *
    rw [Nat.le_div_iff_mul_le posDen] at low
    rw [Nat.div_lt_iff_lt_mul posDen] at high
    refine (leadingPlace_eq ?_ ?_).symm
    · rw [le_div_iff₀ pos]
      exact_mod_cast low
    · rw [div_lt_iff₀ pos]
      exact_mod_cast high
  · rename_i small
    have nonzero : (den - 1) / num ≠ 0 := Nat.pos_iff_ne_zero.1 (Nat.div_pos (by omega) posNum)
    have low := Decimal.log10_le nonzero
    have high := Decimal.lt_log10 ((den - 1) / num)
    generalize Decimal.log10 ((den - 1) / num) = k at *
    rw [Nat.le_div_iff_mul_le posNum] at low
    rw [Nat.div_lt_iff_lt_mul posNum] at high
    have low' : num * 10 ^ k < 1 * den := by
      simp only [Nat.pow_eq, Nat.mul_comm] at low ⊢
      omega
    have high' : den ≤ num * 10 ^ (k + 1) := by
      simp only [Nat.pow_eq, Nat.mul_comm] at high ⊢
      omega
    have next : -((k + 1 : ℕ) : ℤ) + 1 = -(k : ℕ) := by
      push_cast
      ring
    refine (leadingPlace_eq ?_ ?_).symm
    · rw [zpow_neg, zpow_natCast, inv_le_iff_one_le_mul₀ (by positivity), div_mul_eq_mul_div,
        one_le_div pos]
      exact_mod_cast high'
    · rw [next, zpow_neg, zpow_natCast, ← one_div, div_lt_div_iff₀ pos (by positivity)]
      exact_mod_cast low'

/-- A quotient is scaled to have six digits in front of the point. -/
theorem roundDiv_scaled (num : ℕ) {den : ℕ} (posDen : 0 < den) (e : ℤ) :
    (roundDiv (num * Nat.pow 10 (5 - e).toNat) (den * Nat.pow 10 (e - 5).toNat) : ℤ) =
      roundEven (num / den / 10 ^ (e - 5)) := by
  rw [← neg_sub e 5]
  exact roundDiv_eq num posDen (show 0 < 10 by decide) (e - 5)

section
variable {num den : ℕ} (posNum : 0 < num) (posDen : 0 < den)
include posNum posDen

/-- The scaled quotient has six places in front of its point. -/
theorem scaled_bounds :
    (100000 : ℚ) ≤ num / den / 10 ^ (decimalExponent num den - 5) ∧
      (num / den / 10 ^ (decimalExponent num den - 5) : ℚ) < 1000000 := by
  have quotient : (0 : ℚ) < num / den := by positivity
  have unit : (0 : ℚ) < 10 ^ (decimalExponent num den - 5) := by positivity
  have low := zpow_leadingPlace_le quotient
  have high := lt_zpow_leadingPlace quotient
  rw [← decimalExponent_eq posNum posDen] at low high
  generalize decimalExponent num den = e at *
  constructor
  · rw [le_div_iff₀ unit]
    refine le_trans (le_of_eq ?_) low
    rw [show e = 5 + (e - 5) by ring, zpow_add₀ (by norm_num)]
    norm_num
  · rw [div_lt_iff₀ unit]
    refine lt_of_lt_of_eq high ?_
    rw [show e + 1 = 6 + (e - 5) by ring, zpow_add₀ (by norm_num)]
    norm_num

/-- The six digits are those of the rounded quotient, from its first place on. -/
theorem sixDigits_eq :
    ((sixDigits num den).2 : ℚ) * 10 ^ ((sixDigits num den).1 - 5) =
        roundSignificant 6 (num / den) ∧
      100000 ≤ (sixDigits num den).2 ∧ (sixDigits num den).2 < 1000000 := by
  obtain ⟨low, high⟩ := scaled_bounds posNum posDen
  have bounds := roundEven_bounds (a := 100000) (b := 1000000) (mod_cast low) (mod_cast high.le)
  have unit : leadingPlace ((num : ℚ) / den) + 1 - (6 : ℕ) = decimalExponent num den - 5 := by
    rw [decimalExponent_eq posNum posDen]
    push_cast
    ring
  rw [roundSignificant, unit, ← roundDiv_scaled num posDen]
  rw [← roundDiv_scaled num posDen] at bounds
  unfold sixDigits
  dsimp only
  generalize decimalExponent num den = e at *
  generalize roundDiv _ _ = d at *
  split
  · rename_i carry
    refine ⟨?_, Nat.le_refl _, (by decide : 100000 < 1000000)⟩
    rw [carry, show e + 1 - 5 = 1 + (e - 5) by ring, zpow_add₀ (by norm_num)]
    norm_num
    ring
  · exact ⟨by push_cast; rfl, by omega, by omega⟩

end

/-- Rounding the quotient anew, to the places that leave six digits, makes the same digits. -/
theorem roundDiv_places (num : ℕ) {den : ℕ} (posDen : 0 < den)
    (small : (sixDigits num den).1 ≤ 5) :
    roundDiv (num * Nat.pow 10 (5 - (sixDigits num den).1).toNat) den = (sixDigits num den).2 := by
  have first := roundDiv_scaled num posDen (decimalExponent num den)
  have again := roundDiv_scaled num posDen (sixDigits num den).1
  have one : ((sixDigits num den).1 - 5).toNat = 0 := by omega
  rw [one, show den * Nat.pow 10 0 = den from Nat.mul_one den] at again
  rw [← Int.natCast_inj, again]
  unfold sixDigits
  dsimp only
  generalize decimalExponent num den = e at *
  split <;> rename_i carry
  · -- less than a half below a power of ten: less than a tenth of that in the next larger unit
    rw [carry] at first
    have near := abs_le.1 (roundEven_near ((num : ℚ) / den / 10 ^ (e - 5)))
    rw [← first] at near
    push_cast at near
    have unit : (10 : ℚ) ^ (e + 1 - 5) = 10 ^ (e - 5) * 10 := by
      rw [← zpow_add_one₀ (by norm_num)]
      ring_nf
    dsimp only
    rw [unit, ← div_div]
    generalize (num : ℚ) / den / 10 ^ (e - 5) = q at near
    have close : |q / 10 - (100000 : ℤ)| < 1 / 2 := by
      rw [abs_lt]
      push_cast
      constructor <;> linarith
    exact roundEven_unique close.le fun half => absurd half close.ne
  · exact first.symm

end Binary64

end Pseudocode
