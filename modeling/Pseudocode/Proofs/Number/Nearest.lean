import Mathlib
import Pseudocode.Proofs.Number.Bits
/-!
# Quotients are rounded

A real number is computed as an exact quotient of natural numbers, and rounded. The place of its
first bit is found, its significand is counted on the bits behind that, and both are put together to
a magnitude; this reaches that of infinity just if the rounded number is too large. The literals of
a source are rounded in the same way.

* `floorLog2_eq`: the place of the first bit;
* `rounds_ofRatio`, `rounds_ofUnits`, `rounds_ofDecimal`: quotients, integers at a place, and the
  digits of a literal are rounded;
* `Rounds.near`, `Rounds.unique`: the result is nearest to the exact number, and no other number
  rounds it.
-/
namespace Pseudocode

/-! ## The first bit -/

theorem shifted_le_iff (num : ℕ) {den : ℕ} (posDen : 0 < den) (p : ℤ) :
    den <<< p.toNat ≤ num <<< (-p).toNat ↔ (2 : ℚ) ^ p ≤ num / den := by
  have unit : (0 : ℚ) < 2 ^ p := by positivity
  have shifted : (0 : ℚ) < (den * 2 ^ p.toNat : ℕ) := by positivity
  have scaled := scaled_div num den two_pos p
  rw [← one_le_div unit, ← Nat.cast_two, ← scaled, one_le_div shifted, Nat.shiftLeft_eq,
    Nat.shiftLeft_eq, Nat.cast_le]

/-- The place of the first bit of a quotient: the difference of those of its two numbers, or the one
behind it. -/
theorem floorLog2_eq {num den : ℕ} (posNum : 0 < num) (posDen : 0 < den) :
    floorLog2 num den = Int.log 2 ((num : ℚ) / den) := by
  have lowNum : ((2 ^ num.log2 : ℕ) : ℚ) ≤ num := Nat.cast_le.2 (Nat.log2_self_le posNum.ne')
  have highNum : (num : ℚ) < (2 ^ (num.log2 + 1) : ℕ) := Nat.cast_lt.2 Nat.lt_log2_self
  have lowDen : ((2 ^ den.log2 : ℕ) : ℚ) ≤ den := Nat.cast_le.2 (Nat.log2_self_le posDen.ne')
  have highDen : (den : ℚ) < (2 ^ (den.log2 + 1) : ℕ) := Nat.cast_lt.2 Nat.lt_log2_self
  have pos : (0 : ℚ) < den := by exact_mod_cast posDen
  unfold floorLog2
  simp only [shifted_le_iff num posDen]
  generalize num.log2 = a at *
  generalize den.log2 = b at *
  push_cast at lowNum highNum lowDen highDen
  have below : (num : ℚ) / den < 2 ^ ((a : ℤ) - b + 1) := by
    have power : (2 : ℚ) ^ ((a : ℤ) - b + 1) = 2 ^ (a + 1) / 2 ^ b := by
      rw [sub_add_eq_add_sub, zpow_sub₀ two_ne_zero]
      rfl
    rw [power]
    exact div_lt_div₀ highNum lowDen (by positivity) (by positivity)
  have above : (2 : ℚ) ^ ((a : ℤ) - b - 1) ≤ num / den := by
    have power : (2 : ℚ) ^ ((a : ℤ) - b - 1) = 2 ^ a / 2 ^ (b + 1) := by
      rw [sub_sub, zpow_sub₀ two_ne_zero]
      rfl
    rw [power]
    exact div_le_div₀ (by positivity) lowNum pos highDen.le
  split
  · rename_i reached
    exact (log_eq one_lt_two (mod_cast reached) (mod_cast below)).symm
  · rename_i missed
    rw [not_le] at missed
    refine (log_eq one_lt_two (mod_cast above) ?_).symm
    rw [sub_add_cancel]
    exact mod_cast missed

namespace Binary64

/-! ## Quotients -/

/-- The number is the exact one, rounded, or an infinity if that is too large. It has the sign of
the exact one, also where it is rounded to zero. -/
structure Rounds (x : Binary64) (q : ℚ) : Prop where
  sign : q ≠ 0 → x.negative = decide (q < 0)
  finite : |roundBinary q| < 2 ^ 1024 → x.isFinite = true ∧ x.toRat = roundBinary q
  infinite : 2 ^ 1024 ≤ |roundBinary q| → x = infinity (q < 0)

/-- The significand that is computed for a quotient. -/
theorem roundDiv_shifted (num : ℕ) {den : ℕ} (posDen : 0 < den) (p : ℤ) :
    (roundDiv (num <<< (-p).toNat) (den <<< p.toNat) : ℤ) = roundEven (num / den / 2 ^ p) := by
  rw [Nat.shiftLeft_eq, Nat.shiftLeft_eq]
  exact roundDiv_eq num posDen two_pos p

/-- A number in units of its last place has fifty-three bits in front of the point, unless the place
is the last there is. -/
theorem significand_bounds {q : ℚ} (pos : 0 < q) :
    0 ≤ roundEven (q / 2 ^ lastPlace q) ∧ roundEven (q / 2 ^ lastPlace q) ≤ 2 * hiddenBit ∧
      (lastPlace q = -1074 ∨ (hiddenBit : ℤ) ≤ roundEven (q / 2 ^ lastPlace q)) := by
  have unit : (0 : ℚ) < 2 ^ lastPlace q := by positivity
  have low : (2 : ℚ) ^ Int.log 2 q ≤ q := mod_cast Int.zpow_log_le_self one_lt_two pos
  have high : q < (2 : ℚ) ^ (Int.log 2 q + 1) := mod_cast Int.lt_zpow_succ_log_self one_lt_two q
  have place : lastPlace q = max (Int.log 2 q - 52) (-1074) := by rw [lastPlace, abs_of_pos pos]
  generalize Int.log 2 q = e at *
  generalize lastPlace q = p at *
  have below : q / 2 ^ p ≤ (2 * hiddenBit : ℤ) := by
    rw [div_le_iff₀ unit]
    calc q ≤ 2 ^ (e + 1) := high.le
      _ ≤ 2 ^ (p + 52 + 1) := zpow_le_zpow_right₀ one_le_two (by omega)
      _ = (2 * hiddenBit : ℤ) * 2 ^ p := by
        rw [zpow_add_one₀ two_ne_zero, ← hiddenBit_mul_zpow]
        push_cast
        ring
  obtain ⟨nonneg, few⟩ := roundEven_bounds (a := 0) (by rw [Int.cast_zero]; positivity) below
  refine ⟨nonneg, few, ?_⟩
  rcases le_or_gt (e - 52) (-1074) with least | more
  · exact .inl (by omega)
  · refine .inr (roundEven_bounds (b := 2 * hiddenBit) ?_ below).1
    rw [le_div_iff₀ unit]
    calc ((hiddenBit : ℤ) : ℚ) * 2 ^ p = 2 ^ (p + 52) := hiddenBit_mul_zpow p
      _ = 2 ^ e := by rw [place, max_eq_left more.le, sub_add_cancel]
      _ ≤ q := low

theorem bits_ofMagnitude (negative : Bool) {m : ℕ} (small : m < signBit) :
    (ofMagnitude negative m).negative = negative ∧ (ofMagnitude negative m).magnitude = m := by
  unfold Binary64.negative magnitude
  cases negative <;> simp only [ofMagnitude, signBit, UInt64.toNat_ofNat'] at * <;> simp <;> omega

section
variable {k m : ℕ} (places : k = 0 ∨ hiddenBit ≤ m) (bits : m ≤ 2 * hiddenBit)
include places bits

/-- A significand of fifty-three bits at a place is written as a number of places above the last one
there is, and the significand; a bit above them is carried to the next place. -/
theorem toRat_ofMagnitude (negative : Bool) (small : k * hiddenBit + m < infinityMagnitude) :
    (ofMagnitude negative (k * hiddenBit + m)).isFinite = true ∧
      (ofMagnitude negative (k * hiddenBit + m)).toRat =
        (if negative then -1 else 1) * (m * 2 ^ ((k : ℤ) - 1074)) := by
  obtain ⟨sign, same⟩ := bits_ofMagnitude negative (small.trans (by decide))
  have finite : (ofMagnitude negative (k * hiddenBit + m)).isFinite = true := by
    rw [isFinite, same]
    exact decide_eq_true small
  refine ⟨finite, ?_⟩
  rw [toRat, sign, significand, exponent, same]
  congr 1
  unfold hiddenBit at *
  by_cases first : k * 0x0010000000000000 + m < 0x0010000000000000
  · obtain rfl : k = 0 := by omega
    rw [if_pos first, if_pos first]
    simp
  · rw [if_neg first, if_neg first]
    rcases bits.lt_or_eq with less | rfl
    · have place : (k * 0x0010000000000000 + m) / 0x0010000000000000 = k + 1 := by omega
      have rest : (k * 0x0010000000000000 + m) % 0x0010000000000000 + 0x0010000000000000 = m := by
        omega
      rw [place, rest]
      congr 2
      push_cast
      ring
    · have place : (k * 0x0010000000000000 + 2 * 0x0010000000000000) / 0x0010000000000000 =
          k + 2 := by omega
      have rest : (k * 0x0010000000000000 + 2 * 0x0010000000000000) % 0x0010000000000000 = 0 := by
        omega
      have power : ((k + 2 : ℕ) : ℤ) - 1075 = (k - 1074 : ℤ) + 1 := by
        push_cast
        ring
      rw [place, rest, power, zpow_add_one₀ two_ne_zero]
      push_cast
      ring

/-- The magnitude is below that of infinity just if the number is not too large. -/
theorem magnitude_lt_iff :
    k * hiddenBit + m < infinityMagnitude ↔ (m : ℚ) * 2 ^ ((k : ℤ) - 1074) < 2 ^ 1024 := by
  have limit : (m : ℚ) * 2 ^ ((k : ℤ) - 1074) < 2 ^ 1024 ↔ (m : ℚ) < 2 ^ (2098 - (k : ℤ)) := by
    have power : (2 : ℚ) ^ (2098 - (k : ℤ)) * 2 ^ ((k : ℤ) - 1074) = 2 ^ 1024 := by
      rw [← zpow_add₀ two_ne_zero, ← zpow_natCast]
      congr 1
      push_cast
      ring
    rw [← power, mul_lt_mul_iff_left₀ (by positivity)]
  rw [limit]
  unfold hiddenBit infinityMagnitude at *
  rcases lt_trichotomy k 2045 with few | rfl | many
  · have room : (2 : ℚ) ^ (54 : ℤ) ≤ 2 ^ (2098 - (k : ℤ)) :=
      zpow_le_zpow_right₀ one_le_two (by omega)
    have short : (m : ℚ) < 2 ^ (54 : ℤ) := by
      have : m < 2 ^ 54 := by omega
      exact_mod_cast this
    exact iff_of_true (by omega) (short.trans_le room)
  · have power : (2 : ℚ) ^ (2098 - ((2045 : ℕ) : ℤ)) = (2 ^ 53 : ℕ) := by norm_num
    rw [power, Nat.cast_lt]
    omega
  · have room : (2 : ℚ) ^ (2098 - (k : ℤ)) ≤ 2 ^ (52 : ℤ) :=
      zpow_le_zpow_right₀ one_le_two (by omega)
    have long : (2 : ℚ) ^ (52 : ℤ) ≤ m := by
      have : 2 ^ 52 ≤ m := by omega
      exact_mod_cast this
    exact iff_of_false (by omega) (not_lt.2 (room.trans long))

end

/-- The magnitude that is computed for a quotient is made of its place and its rounded significand.
-/
theorem ofRatio_eq (negative : Bool) {num den : ℕ} (posNum : 0 < num) (posDen : 0 < den) {q : ℚ}
    (quotient : q = num / den) :
    ofRatio negative num den = ofMagnitude negative (min infinityMagnitude
      ((lastPlace q + 1074).toNat * hiddenBit + (roundEven (q / 2 ^ lastPlace q)).toNat)) := by
  have pos : 0 < q := by rw [quotient]; positivity
  have place : max (floorLog2 num den - 52) (-1074) = lastPlace q := by
    rw [floorLog2_eq posNum posDen, lastPlace, abs_of_pos pos, quotient]
  unfold ofRatio
  rw [if_neg posNum.ne']
  dsimp only
  rw [place, quotient, ← roundDiv_shifted num posDen, Int.toNat_natCast]

theorem roundBinary_signed (negative : Bool) (q : ℚ) :
    roundBinary ((if negative then -1 else 1) * q) =
      (if negative then -1 else 1) * roundBinary q := by
  cases negative with
  | false => simp
  | true => simp [roundBinary_neg]

theorem rounds_zero (negative : Bool) : Rounds (zero negative) 0 where
  sign nonzero := absurd rfl nonzero
  finite _ := by
    obtain ⟨finite, value⟩ :=
      toRat_ofMagnitude (k := 0) (m := 0) (.inl rfl) (Nat.zero_le _) negative (by decide)
    exact ⟨finite, value.trans (by simp [roundBinary_zero])⟩
  infinite large := by
    rw [roundBinary_zero, abs_zero] at large
    exact absurd large (not_le.2 (by positivity))

/-- A quotient of natural numbers with a sign is rounded. -/
theorem rounds_ofRatio (negative : Bool) (num : ℕ) {den : ℕ} (posDen : 0 < den) :
    Rounds (ofRatio negative num den) ((if negative then -1 else 1) * (num / den)) := by
  rcases Nat.eq_zero_or_pos num with rfl | posNum
  · rw [Nat.cast_zero, zero_div, mul_zero, ofRatio, if_pos rfl]
    exact rounds_zero negative
  have pos : (0 : ℚ) < num / den := by positivity
  have computed := ofRatio_eq negative posNum posDen rfl
  obtain ⟨nonneg, bits, places⟩ := significand_bounds pos
  have least : -1074 ≤ lastPlace ((num : ℚ) / den) := le_max_right _ _
  have rounded : roundBinary ((num : ℚ) / den) = roundEven (num / den / 2 ^ lastPlace (num / den)) *
    2 ^ lastPlace ((num : ℚ) / den) := rfl
  generalize (num : ℚ) / den = q at *
  generalize roundEven (q / 2 ^ lastPlace q) = s at *
  generalize lastPlace q = p at *
  obtain ⟨m, rfl⟩ := Int.eq_ofNat_of_zero_le nonneg
  obtain ⟨k, rfl⟩ : ∃ k : ℕ, p = k - 1074 := ⟨(p + 1074).toNat, by omega⟩
  rw [sub_add_cancel, Int.toNat_natCast, Int.toNat_natCast] at computed
  rw [Int.cast_natCast] at rounded
  have places' : k = 0 ∨ hiddenBit ≤ m := by omega
  have bits' : m ≤ 2 * hiddenBit := by omega
  have small := magnitude_lt_iff places' bits'
  rw [← rounded] at small
  have nonneg' : 0 ≤ roundBinary q := by rw [rounded]; positivity
  have size : |roundBinary ((if negative then -1 else 1) * q)| = roundBinary q := by
    rw [roundBinary_signed]
    cases negative <;> simp [abs_of_nonneg nonneg']
  have sign : decide ((if negative then -1 else 1) * q < 0) = negative := by
    cases negative <;> simp [pos, pos.le]
  refine ⟨fun _ => ?_, fun fits => ?_, fun large => ?_⟩
  · have word : min infinityMagnitude (k * hiddenBit + m) < signBit :=
      (min_le_left _ _).trans_lt (by decide)
    rw [sign, computed]
    exact (bits_ofMagnitude negative word).1
  · rw [size, ← small] at fits
    rw [computed, min_eq_right fits.le, roundBinary_signed, rounded]
    exact toRat_ofMagnitude places' bits' negative fits
  · rw [size, ← not_lt, ← small, not_lt] at large
    rw [computed, min_eq_left large, sign, infinity]

/-- An integer in units of a place is rounded. -/
theorem rounds_ofUnits {n : ℤ} (nonzero : n ≠ 0) (p : ℤ) :
    Rounds (ofRatio (n < 0) (n.natAbs <<< p.toNat) (1 <<< (-p).toNat)) (n * 2 ^ p) := by
  obtain ⟨posDen, quotient⟩ := shifted_div n.natAbs p
  have rounds := rounds_ofRatio (n < 0) (n.natAbs <<< p.toNat) posDen
  rw [quotient, ← mul_assoc] at rounds
  have signed : (if decide (n < 0) = true then -1 else 1) * (n.natAbs : ℚ) = n := by
    rcases lt_or_gt_of_ne nonzero with below | above
    · rw [if_pos (decide_eq_true below), Nat.cast_natAbs, abs_of_neg below]
      push_cast
      ring
    · rw [if_neg (by simpa using above.le), Nat.cast_natAbs, abs_of_pos above, one_mul]
  rwa [signed] at rounds

/-- The real number of a literal is that of its digits, rounded. -/
theorem rounds_ofDecimal (whole fraction : List Char) :
    Rounds (ofDecimal whole fraction)
      (Decimal.value (whole ++ fraction) / 10 ^ fraction.length) := by
  have rounds := rounds_ofRatio false (Decimal.value (whole ++ fraction))
    (Nat.pow_pos (n := fraction.length) (show 0 < 10 by decide))
  rw [if_neg Bool.false_ne_true, one_mul] at rounds
  exact_mod_cast rounds

/-! ## What rounds a number -/

/-- No number of the format is nearer than the one that rounds an exact number. -/
theorem Rounds.near {x : Binary64} {q : ℚ} (rounds : Rounds x q)
    (fits : |roundBinary q| < 2 ^ 1024) (z : Binary64) : |q - x.toRat| ≤ |q - z.toRat| := by
  rw [(rounds.finite fits).2]
  exact roundBinary_near q z

/-- What rounds a number other than zero is determined by it. -/
theorem Rounds.unique {x y : Binary64} {q : ℚ} (nonzero : q ≠ 0) (left : Rounds x q)
    (right : Rounds y q) : x = y := by
  rcases lt_or_ge |roundBinary q| (2 ^ 1024) with fits | large
  · exact eq_of_toRat_eq ((left.sign nonzero).trans (right.sign nonzero).symm)
      ((left.finite fits).2.trans (right.finite fits).2.symm)
  · exact (left.infinite large).trans (right.infinite large).symm

end Binary64

end Pseudocode
