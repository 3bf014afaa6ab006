import Pseudocode.Machine.Operation
/-!
# Integers are exact or rejected

Arithmetic on integers has the exact result, unless that has no 64 bits or there is none. What each
operation comes to is told for results and for errors, so nothing is left that could wrap.

* `isExact_checked`: an exact result that is accepted or rejected;
* `fits64_tdiv_iff`: the one quotient that does not fit;
* `fits64_tmod`: remainders always fit;
* `guarded_eq_ok_iff`, `guarded_eq_error_iff`: divisions, which refuse zero first;
* `integer_arithmetic_exact`: all operations on two integers.
-/
namespace Pseudocode

/-! ## Exact results -/

/-- The number has 64 bits. -/
def Fits64 (n : Int) : Prop := Int64.minValue.toInt ≤ n ∧ n ≤ Int64.maxValue.toInt

instance (n : Int) : Decidable (Fits64 n) := inferInstanceAs (Decidable (_ ∧ _))

theorem fits64_iff {n : Int} : Fits64 n ↔ minInt ≤ n ∧ n ≤ maxInt := by
  rw [Fits64, Int64.toInt_minValue, Int64.toInt_maxValue]
  rfl

theorem fits64_toInt (x : Int64) : Fits64 x.toInt :=
  ⟨Int64.minValue_le_toInt x, Int64.toInt_le x⟩

/-- The result is the exact number if that has 64 bits, and otherwise it is an overflow. -/
structure IsExact (op : Opcode) (exact : Int) (result : Except RunFault Value) : Prop where
  ok : ∀ v, result = .ok v ↔ ∃ n : Int64, v = .integer n ∧ n.toInt = exact
  error : ∀ f, result = .error f ↔ f = .overflow op ∧ ¬ Fits64 exact

theorem checked_of_fits64 (op : Opcode) {n : Int} (fits : Fits64 n) :
    ∃ r : Int64, checked op n = .ok r ∧ r.toInt = n := by
  obtain ⟨low, high⟩ := fits64_iff.1 fits
  exact ⟨_, if_pos ⟨low, high⟩, Int64.toInt_ofInt_of_le low (Int.lt_add_one_of_le high)⟩

theorem checked_of_not_fits64 (op : Opcode) {n : Int} (large : ¬ Fits64 n) :
    checked op n = .error (.overflow op) :=
  if_neg (mt fits64_iff.2 large)

theorem isExact_checked (op : Opcode) (n : Int) :
    IsExact op n ((checked op n).map .integer) := by
  by_cases fits : Fits64 n
  · obtain ⟨r, accepted, exact⟩ := checked_of_fits64 op fits
    rw [accepted]
    refine ⟨fun v => ⟨?_, ?_⟩, fun f => ⟨nofun, fun ⟨_, large⟩ => absurd fits large⟩⟩
    · rintro ⟨⟩
      exact ⟨r, rfl, exact⟩
    · rintro ⟨k, rfl, same⟩
      rw [Int64.toInt_inj.1 (exact.trans same.symm)]
      rfl
  · rw [checked_of_not_fits64 op fits]
    refine ⟨fun v => ⟨nofun, ?_⟩, fun f => ⟨?_, ?_⟩⟩
    · rintro ⟨k, -, rfl⟩
      exact absurd (fits64_toInt k) fits
    · rintro ⟨⟩
      exact ⟨rfl, fits⟩
    · rintro ⟨rfl, -⟩
      rfl

/-! ## Quotients and remainders -/

theorem toInt_eq_zero_iff {y : Int64} : y.toInt = 0 ↔ y = 0 := by
  rw [← Int64.toInt_inj, Int64.toInt_zero]

/-- The only quotient without 64 bits is that of the least integer by minus one. -/
theorem fits64_tdiv_iff (x y : Int64) :
    Fits64 (x.toInt.tdiv y.toInt) ↔ ¬ (x = Int64.minValue ∧ y = -1) := by
  have least : x = Int64.minValue ↔ x.toInt = -2 ^ 63 := by
    rw [← Int64.toInt_inj, Int64.toInt_minValue]
  have minusOne : y = -1 ↔ y.toInt = -1 := by
    rw [← Int64.toInt_inj]
    rfl
  obtain ⟨low, high⟩ := fits64_iff.1 (fits64_toInt x)
  rw [least, minusOne, fits64_iff]
  generalize x.toInt = x at *
  generalize y.toInt = y at *
  unfold minInt maxInt at *
  by_cases negated : y = -1
  · rw [negated, Int.tdiv_neg, Int.tdiv_one]
    omega
  · refine iff_of_true ?_ fun pair => negated pair.2
    obtain rfl | rfl | large : y = 0 ∨ y = 1 ∨ 2 ≤ y.natAbs := by omega
    · rw [Int.tdiv_zero]
      decide
    · rw [Int.tdiv_one]
      exact ⟨low, high⟩
    · have half : (x.tdiv y).natAbs ≤ x.natAbs / 2 := by
        rw [Int.natAbs_tdiv]
        exact Nat.div_le_div_left large (by decide)
      omega

theorem natAbs_tmod_lt {x y : Int} (nonzero : y ≠ 0) : (x.tmod y).natAbs < y.natAbs := by
  rw [Int.natAbs_tmod]
  exact Nat.mod_lt _ (Int.natAbs_pos.2 nonzero)

/-- What is divided without a rest is no larger than the dividend. -/
theorem natAbs_mul_tdiv_le (x y : Int) : (y * x.tdiv y).natAbs ≤ x.natAbs := by
  rw [Int.natAbs_mul, Int.natAbs_tdiv]
  exact Nat.mul_div_le _ _

/-- Remainders always fit, that of the least integer by minus one too. -/
theorem fits64_tmod (x y : Int64) : Fits64 (x.toInt.tmod y.toInt) := by
  rw [← Int64.toInt_mod]
  exact fits64_toInt _

/-- The result is the quotient without its fraction, unless there is none or it does not fit. -/
structure IsQuotient (op : Opcode) (x y : Int64) (result : Except RunFault Value) : Prop where
  ok : ∀ v, result = .ok v ↔
    y ≠ 0 ∧ ∃ q : Int64, v = .integer q ∧ q.toInt = x.toInt.tdiv y.toInt
  error : ∀ f, result = .error f ↔
    f = .divisionByZero ∧ y = 0 ∨ f = .overflow op ∧ x = Int64.minValue ∧ y = -1
  towardsZero : ∀ q : Int64, result = .ok (.integer q) →
    q.toInt.natAbs = x.toInt.natAbs / y.toInt.natAbs ∧
      (q = 0 ∨ q.toInt.sign = x.toInt.sign * y.toInt.sign)

/-- The result is what the quotient leaves, unless there is none. -/
structure IsRemainder (x y : Int64) (result : Except RunFault Value) : Prop where
  ok : ∀ v, result = .ok v ↔
    y ≠ 0 ∧ ∃ r : Int64, v = .integer r ∧ r.toInt = x.toInt.tmod y.toInt
  error : ∀ f, result = .error f ↔ f = .divisionByZero ∧ y = 0
  small : ∀ r : Int64, result = .ok (.integer r) →
    r.toInt.natAbs < y.toInt.natAbs ∧ (r = 0 ∨ r.toInt.sign = x.toInt.sign)

section
variable (op : Opcode) (x y : Int64)

/-- A division that refuses zero and checks its exact result otherwise. -/
theorem guarded_eq_ok_iff (n : Int) (v : Value) :
    (if y = 0 then .error .divisionByZero else checked op n).map .integer = .ok v ↔
      y ≠ 0 ∧ ∃ k : Int64, v = .integer k ∧ k.toInt = n := by
  by_cases zero : y = 0
  · rw [if_pos zero]
    exact ⟨nofun, fun given => absurd zero given.1⟩
  · rw [if_neg zero, (isExact_checked op n).ok]
    exact (and_iff_right zero).symm

theorem guarded_eq_error_iff (n : Int) (f : RunFault) :
    (if y = 0 then .error .divisionByZero else checked op n).map Value.integer = .error f ↔
      f = .divisionByZero ∧ y = 0 ∨ f = .overflow op ∧ y ≠ 0 ∧ ¬ Fits64 n := by
  by_cases zero : y = 0
  · rw [if_pos zero]
    constructor
    · rintro ⟨⟩
      exact .inl ⟨rfl, zero⟩
    · rintro (⟨rfl, -⟩ | ⟨-, other, -⟩)
      · rfl
      · exact absurd zero other
  · rw [if_neg zero, (isExact_checked op n).error]
    constructor
    · exact fun why => .inr ⟨why.1, zero, why.2⟩
    · rintro (⟨-, none⟩ | ⟨rfl, -, large⟩)
      · exact absurd none zero
      · exact ⟨rfl, large⟩

/-- Quotients and remainders are zero, or have their sign. -/
theorem eq_zero_or_sign_eq {k : Int64} {n s : Int} {small : Prop} [Decidable small]
    (exact : k.toInt = n) (sign : n.sign = if small then 0 else s) : k = 0 ∨ k.toInt.sign = s := by
  rw [← exact] at sign
  split at sign
  · exact .inl (toInt_eq_zero_iff.1 (Int.sign_eq_zero_iff_zero.1 sign))
  · exact .inr sign

theorem isQuotient_checked : IsQuotient op x y ((if y = 0 then .error .divisionByZero
    else checked op (x.toInt.tdiv y.toInt)).map .integer) := by
  have divisible : x = Int64.minValue ∧ y = -1 → y ≠ 0 := by
    rintro ⟨-, rfl⟩
    decide
  refine ⟨guarded_eq_ok_iff op y _, fun f => ?_, fun q found => ?_⟩
  · rw [guarded_eq_error_iff, fits64_tdiv_iff, Decidable.not_not, and_iff_right_of_imp divisible]
  · obtain ⟨-, _, ⟨⟩, whole⟩ := (guarded_eq_ok_iff op y _ _).1 found
    exact ⟨whole ▸ Int.natAbs_tdiv .., eq_zero_or_sign_eq whole (Int.sign_tdiv ..)⟩

theorem isRemainder_checked : IsRemainder x y ((if y = 0 then .error .divisionByZero
    else checked op (x.toInt.tmod y.toInt)).map .integer) := by
  refine ⟨guarded_eq_ok_iff op y _, fun f => ?_, fun r found => ?_⟩
  · rw [guarded_eq_error_iff, or_iff_left]
    exact fun why => why.2.2 (fits64_tmod x y)
  · obtain ⟨nonzero, _, ⟨⟩, left⟩ := (guarded_eq_ok_iff op y _ _).1 found
    exact ⟨left ▸ natAbs_tmod_lt (mt toInt_eq_zero_iff.1 nonzero),
      eq_zero_or_sign_eq left (Int.sign_tmod ..)⟩

end

/-- A fault of an operation as another operation reports it. -/
def RunFault.reportedBy (op : Opcode) : RunFault → RunFault
  | .overflow _ => .overflow op
  | f => f

/-! ## All operations on two integers -/

/-- The operations on two integers are exact or rejected. Both divisions agree, and what they leave
is the remainder. -/
theorem integer_arithmetic_exact (x y : Int64) :
    IsExact .add (x.toInt + y.toInt) (arithmetic .add (.integer x) (.integer y)) ∧
    IsExact .subtract (x.toInt - y.toInt) (arithmetic .subtract (.integer x) (.integer y)) ∧
    IsExact .multiply (x.toInt * y.toInt) (arithmetic .multiply (.integer x) (.integer y)) ∧
    IsExact .negate (-x.toInt) (negation (.integer x)) ∧
    IsQuotient .divide x y (arithmetic .divide (.integer x) (.integer y)) ∧
    IsQuotient .quotient x y (arithmetic .quotient (.integer x) (.integer y)) ∧
    arithmetic .quotient (.integer x) (.integer y) =
      (arithmetic .divide (.integer x) (.integer y)).mapError (·.reportedBy .quotient) ∧
    IsRemainder x y (arithmetic .remainder (.integer x) (.integer y)) ∧
    ∀ q : Int64, arithmetic .quotient (.integer x) (.integer y) = .ok (.integer q) →
      ∃ p r : Int64, arithmetic .multiply (.integer y) (.integer q) = .ok (.integer p) ∧
        arithmetic .remainder (.integer x) (.integer y) = .ok (.integer r) ∧
        arithmetic .add (.integer p) (.integer r) = .ok (.integer x) ∧
        x.toInt = y.toInt * q.toInt + r.toInt := by
  have quotient : IsQuotient .quotient x y (arithmetic .quotient (.integer x) (.integer y)) :=
    isQuotient_checked .quotient x y
  have remainder : IsRemainder x y (arithmetic .remainder (.integer x) (.integer y)) :=
    isRemainder_checked .remainder x y
  have multiply (x y : Int64) :
      IsExact .multiply (x.toInt * y.toInt) (arithmetic .multiply (.integer x) (.integer y)) :=
    isExact_checked .multiply _
  refine ⟨isExact_checked .add _, isExact_checked .subtract _, multiply x y,
    isExact_checked .negate _, isQuotient_checked .divide x y, quotient, ?_, remainder, ?_⟩
  · show (if y = 0 then _ else checked .quotient _).map Value.integer =
      ((if y = 0 then _ else checked .divide _).map Value.integer).mapError _
    unfold checked
    split
    · rfl
    · split <;> rfl
  · intro q found
    obtain ⟨nonzero, _, ⟨⟩, exact⟩ := (quotient.ok _).1 found
    have whole := Int.mul_tdiv_add_tmod x.toInt y.toInt
    have front := natAbs_mul_tdiv_le x.toInt y.toInt
    rw [← Int64.toInt_mod, ← exact] at whole
    rw [← exact] at front
    obtain ⟨low, high⟩ := fits64_iff.1 (fits64_toInt x)
    obtain ⟨low', high'⟩ := fits64_iff.1 (fits64_toInt (x % y))
    -- the product is no larger than the dividend, and 2^63 would leave too much for the remainder
    have fits : Fits64 (y.toInt * q.toInt) := by
      rw [fits64_iff]
      unfold minInt maxInt at *
      omega
    obtain ⟨p, -, product⟩ := checked_of_fits64 .multiply fits
    exact ⟨p, x % y, ((multiply y q).ok _).2 ⟨p, rfl, product⟩,
      (remainder.ok _).2 ⟨nonzero, _, rfl, Int64.toInt_mod x y⟩,
      ((isExact_checked .add _).ok _).2 ⟨x, rfl, by rw [product, whole]⟩, whole.symm⟩

/-- The least integer by minus one has a remainder but no quotient, and by two a quotient too. -/
theorem integer_arithmetic_exact_least :
    arithmetic .divide (.integer Int64.minValue) (.integer (-1)) = .error (.overflow .divide) ∧
    arithmetic .remainder (.integer Int64.minValue) (.integer (-1)) = .ok (.integer 0) ∧
    negation (.integer Int64.minValue) = .error (.overflow .negate) ∧
    ∃ p r : Int64, arithmetic .multiply (.integer 2) (.integer (-4611686018427387904)) =
        .ok (.integer p) ∧
      arithmetic .remainder (.integer Int64.minValue) (.integer 2) = .ok (.integer r) ∧
      arithmetic .add (.integer p) (.integer r) = .ok (.integer Int64.minValue) ∧
      Int64.minValue.toInt = Int64.toInt 2 * Int64.toInt (-4611686018427387904) + r.toInt := by
  obtain ⟨-, -, -, negated, divided, -, -, left, -⟩ :=
    integer_arithmetic_exact Int64.minValue (-1)
  obtain ⟨-, -, -, -, -, -, -, -, whole⟩ := integer_arithmetic_exact Int64.minValue 2
  exact ⟨(divided.error _).2 (.inr ⟨rfl, rfl, rfl⟩), (left.ok _).2 ⟨by decide, 0, rfl, by decide⟩,
    (negated.error _).2 ⟨rfl, by decide⟩, whole _ rfl⟩

end Pseudocode
