import Mathlib
import Pseudocode.Proofs.Number.Numeral
import Pseudocode.Proofs.Number.Significant
/-!
# Six significant digits read back

A number is shown in two steps. It is rounded to six digits in scientific form, which tells the
place of the first one, and if that is near the point the number is rounded anew, to the places
behind the point that are left. Both roundings make the same digits, so what is shown is one number,
the nearest with six digits.

* `Short`: the texts of a number with six digits;
* `short_shortText`: a quotient is written as such a text;
* `shown_six_digits`: so is every finite number that is not zero.
-/
namespace Pseudocode

open Decimal (Trimmed)

theorem leadingPlace_mul {d : ℕ} (low : 100000 ≤ d) (high : d < 1000000) (e : ℤ) :
    leadingPlace (d * 10 ^ (e - 5)) = e := by
  have low' : (100000 : ℚ) ≤ d := by exact_mod_cast low
  have high' : (d : ℚ) < 1000000 := by exact_mod_cast high
  have unit : (0 : ℚ) < 10 ^ (e - 5) := by positivity
  apply leadingPlace_eq
  · rw [show (10 : ℚ) ^ e = 100000 * 10 ^ (e - 5) by
      rw [show e = 5 + (e - 5) by ring, zpow_add₀ (by norm_num)]; norm_num]
    exact mul_le_mul_of_nonneg_right low' unit.le
  · rw [show (10 : ℚ) ^ (e + 1) = 1000000 * 10 ^ (e - 5) by
      rw [show e + 1 = 6 + (e - 5) by ring, zpow_add₀ (by norm_num)]; norm_num]
    exact mul_lt_mul_of_pos_right high' unit

namespace Binary64

/-- A text of a number with six digits: what is read from it, that it has an exponent just if the
place of the first digit is far from the point, how the exponent is written, and that in front of it
no point is at the end, and no zero behind a point. -/
structure Short (r : ℚ) (text : List Char) : Prop where
  reads : Decimal.read? text = some r
  scientific : 'e' ∈ text ↔ leadingPlace r < -4 ∨ 6 ≤ leadingPlace r
  exponent : 'e' ∈ text → ∃ ds,
    text.dropWhile (· != 'e') = 'e' :: (if leadingPlace r < 0 then '-' else '+') :: ds ∧
      2 ≤ ds.length ∧ (∀ c ∈ ds, c.isDigit = true) ∧ Decimal.value ds = (leadingPlace r).natAbs
  ended : (text.takeWhile (· != 'e')).getLast? ≠ some '.'
  trimmed : '.' ∈ text.takeWhile (· != 'e') → (text.takeWhile (· != 'e')).getLast? ≠ some '0'

theorem split_signed (negative : Bool) (text : List Char) :
    (signed negative text).takeWhile (· != 'e') = signed negative (text.takeWhile (· != 'e')) ∧
      (signed negative text).dropWhile (· != 'e') = text.dropWhile (· != 'e') := by
  cases negative <;> exact ⟨rfl, rfl⟩

theorem mem_signed {negative : Bool} {text : List Char} {c : Char} (other : c ≠ '-') :
    c ∈ signed negative text ↔ c ∈ text := by
  cases negative with
  | false => rfl
  | true => simp [signed, other]

theorem getLast?_signed (negative : Bool) {text : List Char} (nonempty : text ≠ []) :
    (signed negative text).getLast? = text.getLast? := by
  cases negative with
  | false => rfl
  | true => exact List.getLast?_cons_of_ne_nil nonempty

theorem mem_iff_dropWhile {c : Char} {text : List Char} :
    c ∈ text ↔ text.dropWhile (· != c) ≠ [] := by
  rw [Ne, List.dropWhile_eq_nil_iff]
  simp

/-- A trimmed number and the exponent behind it, if the place asks for one, with a sign in front or
without one. -/
theorem short_of_parts {text rest : List Char} {m r : ℚ} {e : ℤ} (trimmed : Trimmed text m)
    (stop : rest.takeWhile (· != 'e') = []) (whole : rest.dropWhile (· != 'e') = rest)
    (read : Decimal.readExponent? rest = some e) (number : m * 10 ^ e = r)
    (form : rest ≠ [] ↔ leadingPlace r < -4 ∨ 6 ≤ leadingPlace r)
    (exponent : rest ≠ [] → ∃ ds, rest = 'e' :: (if leadingPlace r < 0 then '-' else '+') :: ds ∧
      2 ≤ ds.length ∧ (∀ c ∈ ds, c.isDigit = true) ∧ Decimal.value ds = (leadingPlace r).natAbs)
    (negative : Bool) :
    Short (if negative then -r else r) (signed negative (text ++ rest)) := by
  have place : leadingPlace (if negative then -r else r) = leadingPlace r := by
    cases negative with
    | false => rfl
    | true => exact leadingPlace_neg r
  obtain ⟨front, back⟩ := trimmed.split rest
  rw [stop, List.append_nil] at front
  rw [whole] at back
  have split := split_signed negative (text ++ rest)
  rw [front, back] at split
  have bare : (text ++ rest).head? ≠ some '-' := by
    rw [List.head?_append_of_ne_nil _ trimmed.ne_nil]
    exact trimmed.head?_ne
  have there : 'e' ∈ signed negative (text ++ rest) ↔ rest ≠ [] := by
    rw [mem_iff_dropWhile, split.2]
  refine ⟨?_, ?_, ?_, ?_, ?_⟩
  · rw [← number]
    exact Decimal.read?_signed bare (Decimal.readUnsigned?_append trimmed stop whole read) negative
  · rw [there, place, form]
  · rw [there, place, split.2]
    exact exponent
  · rw [split.1, getLast?_signed negative trimmed.ne_nil]
    exact trimmed.getLast?_ne.1
  · rw [split.1, getLast?_signed negative trimmed.ne_nil, mem_signed (by decide)]
    exact trimmed.getLast?_ne.2

/-- A quotient is written with its six digits, in the form that the place of the first one asks for.
-/
theorem short_shortText {num den : ℕ} (posNum : 0 < num) (posDen : 0 < den) (negative : Bool) :
    Short (if negative then -roundSignificant 6 (num / den) else roundSignificant 6 (num / den))
      (signed negative (shortText num den)) := by
  obtain ⟨rounded, low, high⟩ := sixDigits_eq posNum posDen
  have again := roundDiv_places num posDen
  have place := leadingPlace_mul low high (sixDigits num den).1
  rw [rounded] at place
  rw [← place] at again rounded
  unfold shortText scientific
  dsimp only
  rw [← place]
  generalize roundSignificant 6 (num / den) = r at *
  by_cases form : leadingPlace r < -4 ∨ 6 ≤ leadingPlace r
  · rw [if_pos form]
    have written : ∀ c ∈ Decimal.pad 2 (Decimal.digits (leadingPlace r).natAbs), c.isDigit = true :=
      Decimal.isDigit_pad (Decimal.isDigit_digits _)
    have long : 2 ≤ (Decimal.pad 2 (Decimal.digits (leadingPlace r).natAbs)).length := by
      rw [Decimal.pad, List.length_append, List.length_replicate]
      omega
    have number : Decimal.value (Decimal.pad 2 (Decimal.digits (leadingPlace r).natAbs)) =
        (leadingPlace r).natAbs := by
      rw [Decimal.value_pad, Decimal.value_digits]
    have value : ((sixDigits num den).2 / 10 ^ 5 : ℚ) * 10 ^ leadingPlace r = r := by
      rw [zpow_sub₀ (by norm_num), ← mul_div_assoc] at rounded
      rw [div_mul_eq_mul_div]
      exact rounded
    exact short_of_parts (Decimal.trimmed_fixed 5 _) rfl rfl
      (Decimal.readExponent?_eq (List.ne_nil_of_length_pos (by omega)) written number) value
      (iff_of_true (List.cons_ne_nil _ _) form) (fun _ => ⟨_, rfl, long, written, number⟩) negative
  · rw [if_neg form]
    obtain ⟨k, places⟩ : ∃ k : ℕ, leadingPlace r = 5 - k := ⟨(5 - leadingPlace r).toNat, by omega⟩
    have trimmed := Decimal.trimmed_fixed k (sixDigits num den).2
    have unit : (10 : ℚ) ^ (5 - (k : ℤ) - 5) = (10 ^ k)⁻¹ := by
      rw [show 5 - (k : ℤ) - 5 = -k by ring, zpow_neg, zpow_natCast]
    rw [places, unit, ← div_eq_mul_inv] at rounded
    rw [rounded] at trimmed
    rw [fixedPlaces, again (by omega), places, show (5 - (5 - (k : ℤ))).toNat = k by omega]
    have one : r * 10 ^ (0 : ℤ) = r := by rw [zpow_zero, mul_one]
    have short := short_of_parts trimmed rfl rfl rfl one (iff_of_false (not_not_intro rfl) form)
      (absurd rfl) negative
    rwa [List.append_nil] at short

/-! ## Finite numbers -/

/-- The exact value of a finite number. -/
def toRat (x : Binary64) : ℚ := (if x.negative then -1 else 1) * (x.significand * 2 ^ x.exponent)

/-- A number in units of a place as a quotient, as the shifts on both sides make it. -/
theorem shifted_div (n : ℕ) (p : ℤ) :
    0 < 1 <<< (-p).toNat ∧ ((n <<< p.toNat : ℕ) : ℚ) / (1 <<< (-p).toNat : ℕ) = n * 2 ^ p := by
  have quotient := scaled_div n 1 two_pos (-p)
  rw [neg_neg, Nat.cast_one, div_one, zpow_neg, div_inv_eq_mul, Nat.cast_two] at quotient
  rw [Nat.shiftLeft_eq, Nat.shiftLeft_eq]
  exact ⟨by positivity, quotient⟩

theorem ratio_eq (x : Binary64) :
    0 < x.ratio.2 ∧ (x.ratio.1 : ℚ) / x.ratio.2 = x.significand * 2 ^ x.exponent :=
  shifted_div x.significand x.exponent

theorem significand_pos {x : Binary64} (nonzero : x.isZero = false) : 0 < x.significand := by
  rw [isZero, decide_eq_false_iff_not] at nonzero
  unfold significand hiddenBit
  split <;> omega

theorem ratio_pos {x : Binary64} (nonzero : x.isZero = false) : 0 < x.ratio.1 := by
  rw [ratio, Nat.shiftLeft_eq]
  exact Nat.mul_pos (significand_pos nonzero) (by positivity)

theorem not_isNaN_of_isFinite {x : Binary64} (finite : x.isFinite = true) :
    x.isNaN = false ∧ x.isInfinite = false := by
  have bounded := of_decide_eq_true finite
  exact ⟨decide_eq_false (Nat.not_lt_of_lt bounded), decide_eq_false bounded.ne⟩

theorem shown_of_finite {x : Binary64} (finite : x.isFinite = true) (nonzero : x.isZero = false) :
    x.shown = String.ofList (signed x.negative (shortText x.ratio.1 x.ratio.2)) := by
  obtain ⟨number, bounded⟩ := not_isNaN_of_isFinite finite
  rw [shown, number, bounded, nonzero]
  rfl

/-- **Six significant digits.** A finite number that is not zero is shown as what is nearest to it
with six digits, a half going to the even neighbour; in scientific form just if the first digit is
then behind the fourth place behind the point, or in front of the sixth place before it; and without
a point or the zeros of a fraction at the end. -/
theorem shown_six_digits {x : Binary64} (finite : x.isFinite = true) (nonzero : x.isZero = false) :
    Short (roundSignificant 6 x.toRat) x.shown.toList := by
  obtain ⟨posDen, quotient⟩ := ratio_eq x
  have short := short_shortText (ratio_pos nonzero) posDen x.negative
  rw [quotient] at short
  rw [shown_of_finite finite nonzero, String.toList_ofList, toRat]
  generalize x.negative = negative at *
  cases negative with
  | false => simpa using short
  | true => simpa [roundSignificant_neg] using short

/-- A half below a power of ten, which is even, so that the digits are carried into a new one. -/
theorem shown_six_digits_carry :
    let x : Binary64 := ⟨0xC12E847F00000000⟩
    x.isFinite = true ∧ x.isZero = false ∧ x.toRat = -999999.5 ∧ x.shown = "-1e+06" ∧
      roundSignificant 6 x.toRat = -1000000 := by
  intro x
  have finite : x.isFinite = true := by decide
  have nonzero : x.isZero = false := by decide
  have text : x.shown = "-1e+06" := by decide +kernel
  have reads := (shown_six_digits finite nonzero).reads
  rw [text] at reads
  refine ⟨finite, nonzero, ?_, text, ?_⟩
  · have sign : x.negative = true := by decide
    have parts : x.significand = 8589930297032704 ∧ x.exponent = -33 := by decide
    rw [toRat, sign, parts.1, parts.2]
    norm_num
  · have read : Decimal.read? "-1e+06".toList = some (-1000000) := by decide +kernel
    exact Option.some.inj (reads.symm.trans read)

end Binary64

end Pseudocode
