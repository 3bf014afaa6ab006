/-!
# Decimal digits

Natural numbers and decimal fractions as runs of ASCII digits.

* `value_digits`: the digits of a number read back as that number;
* `value_pad`: leading zeros do not change what is read;
* `digits_ne_nil`: there is at least one digit.
-/
namespace Pseudocode.Decimal

def digit (n : Nat) : Char := Char.ofNat (48 + n)

def digitValue (c : Char) : Nat := c.toNat - 48

/-- The digits of a number, without leading zeros. -/
def digits (n : Nat) : List Char :=
  if n < 10 then [digit n] else digits (n / 10) ++ [digit (n % 10)]

/-- The number that a run of digits stands for. -/
def value (ds : List Char) : Nat := ds.foldl (fun n c => 10 * n + digitValue c) 0

/-- The digits with zeros in front, up to the given width. -/
def pad (width : Nat) (ds : List Char) : List Char := List.replicate (width - ds.length) '0' ++ ds

/-- The digits of an integer behind its sign; only a negative one has a sign. -/
def ofInt (n : Int) : List Char := if n < 0 then '-' :: digits n.natAbs else digits n.natAbs

/-- The text without what there is of one character at its end. -/
def trimEnd (c : Char) (text : List Char) : List Char := (text.reverse.dropWhile (· == c)).reverse

/-- A number without the zeros at the end of its fraction, and without the point if no digit follows
it (`trim_zeros`). A number without a point stays as it is. -/
def trimFraction (text : List Char) : List Char :=
  if '.' ∈ text then trimEnd '.' (trimEnd '0' text) else text

/-- The digits of `n / 10 ^ places`, every place written. -/
def fixed (places n : Nat) : List Char :=
  let one := Nat.pow 10 places
  digits (n / one) ++ (if places = 0 then [] else '.' :: pad places (digits (n % one)))

/-- The largest `k` with `10 ^ k ≤ n`, and zero for zero. -/
def log10 (n : Nat) : Nat := if n < 10 then 0 else log10 (n / 10) + 1

theorem digitValue_digit {n : Nat} (h : n < 10) : digitValue (digit n) = n := by
  have all : ∀ k < 10, digitValue (digit k) = k := by decide
  exact all n h

theorem foldl_value (ys : List Char) (n : Nat) :
    ys.foldl (fun n c => 10 * n + digitValue c) n = n * Nat.pow 10 ys.length + value ys := by
  induction ys generalizing n with
  | nil => simp [value]
  | cons c cs ih =>
    rw [value, List.foldl_cons, List.foldl_cons, ih, ih (10 * 0 + digitValue c), List.length_cons]
    simp only [Nat.pow, Nat.add_mul, Nat.mul_zero, Nat.zero_add]
    ac_rfl

theorem value_append (xs ys : List Char) :
    value (xs ++ ys) = value xs * Nat.pow 10 ys.length + value ys := by
  rw [value, List.foldl_append, foldl_value]
  rfl

theorem digits_ne_nil (n : Nat) : digits n ≠ [] := by
  unfold digits
  split <;> simp

theorem value_digits (n : Nat) : value (digits n) = n := by
  fun_induction digits n with
  | case1 n h => simp [value, digitValue_digit h]
  | case2 n h ih =>
    rw [value_append, ih]
    simp [value, digitValue_digit (Nat.mod_lt n (by decide : 0 < 10))]
    omega

theorem value_replicate (k : Nat) : value (List.replicate k '0') = 0 := by
  induction k with
  | zero => rfl
  | succ k ih => rw [List.replicate_succ', value_append, ih]; rfl

theorem value_pad (width : Nat) (ds : List Char) : value (pad width ds) = value ds := by
  rw [pad, value_append, value_replicate]
  omega

theorem log10_le {n : Nat} (h : n ≠ 0) : Nat.pow 10 (log10 n) ≤ n := by
  fun_induction log10 n with
  | case1 n _ => simp; omega
  | case2 n hn ih =>
    have := ih (by omega)
    rw [Nat.pow, Nat.mul_eq]
    omega

theorem lt_log10 (n : Nat) : n < Nat.pow 10 (log10 n + 1) := by
  fun_induction log10 n with
  | case1 n h => simpa using h
  | case2 n hn ih =>
    rw [Nat.pow, Nat.mul_eq]
    omega

end Pseudocode.Decimal
