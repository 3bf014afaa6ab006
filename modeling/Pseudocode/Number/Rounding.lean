/-!
# Rounding a quotient

A quotient is rounded to the nearest natural number, a half to the even neighbour. Logarithms of a
quotient are rounded down; they locate its first binary and decimal digit.

* `roundDiv_near`: the result is within a half of the quotient;
* `roundDiv_even`: a quotient halfway between two numbers goes to the even one;
* `roundDiv_mul`: an exact quotient is not changed.
-/
namespace Pseudocode

/-- The natural number nearest to `num / den`; a half goes to the even neighbour. -/
def roundDiv (num den : Nat) : Nat :=
  let q := num / den
  let r := num % den
  if den < 2 * r ∨ (den = 2 * r ∧ q % 2 = 1) then q + 1 else q

/-- The largest `e` with `2 ^ e ≤ num / den`, for positive numbers. -/
def floorLog2 (num den : Nat) : Int :=
  let e : Int := num.log2 - den.log2
  if den <<< e.toNat ≤ num <<< (-e).toNat then e else e - 1

/-- The result is within a half of the quotient. -/
theorem roundDiv_near (num den : Nat) (h : 0 < den) :
    2 * num ≤ (2 * roundDiv num den + 1) * den ∧ 2 * roundDiv num den * den ≤ 2 * num + den := by
  have split := Nat.div_add_mod num den
  have rest := Nat.mod_lt num h
  simp only [roundDiv]
  generalize num / den = q at *
  generalize num % den = r at *
  have comm : den * q = q * den := Nat.mul_comm _ _
  split <;> constructor <;>
    simp only [Nat.mul_add, Nat.add_mul, Nat.mul_assoc, Nat.one_mul] <;> omega

/-- A quotient halfway between two numbers goes to the even one. -/
theorem roundDiv_even (num den : Nat) (h : den = 2 * (num % den)) :
    roundDiv num den % 2 = 0 := by
  simp only [roundDiv]
  generalize num / den = q at *
  split <;> omega

/-- An exact quotient is not changed. -/
theorem roundDiv_mul (n den : Nat) (h : 0 < den) : roundDiv (n * den) den = n := by
  simp [roundDiv, Nat.mul_div_cancel _ h]
  omega

end Pseudocode
