import Pseudocode.Number.RealText
/-!
# Six places read back

The reading of numbers that the printer's text of a real number is held against. It takes the words
for infinity and for what is not a number, a sign, and digits with a point between them.

* `ofDecimal_positive`: a real literal has no sign and is a number;
* `sixPlaces_eq`: the text of a finite number without a sign is digits, a point and six digits;
* `ofText?_digits`: such a text is read as the digits of a literal are.
-/
namespace Pseudocode

namespace Decimal

theorem isDigit_digit {n : Nat} (small : n < 10) : (digit n).isDigit = true := by
  have all : ∀ k < 10, (digit k).isDigit = true := by decide
  exact all n small

theorem isDigit_digits (n : Nat) : ∀ c ∈ digits n, c.isDigit = true := by
  fun_induction digits n with
  | case1 n small => simpa using isDigit_digit small
  | case2 n large ih =>
    rw [List.forall_mem_append, List.forall_mem_singleton]
    exact ⟨ih, isDigit_digit (Nat.mod_lt n (by decide))⟩

theorem isDigit_pad {width : Nat} {ds : List Char} (digits : ∀ c ∈ ds, c.isDigit = true) :
    ∀ c ∈ pad width ds, c.isDigit = true := by
  rw [pad, List.forall_mem_append]
  refine ⟨fun c inside => ?_, digits⟩
  rw [(List.mem_replicate.1 inside).2]
  rfl

theorem pad_ne_nil (width : Nat) {ds : List Char} (nonempty : ds ≠ []) : pad width ds ≠ [] :=
  List.append_ne_nil_of_right_ne_nil _ nonempty

end Decimal

namespace Binary64

def isFinite (x : Binary64) : Bool := x.magnitude < infinityMagnitude

/-- The number that a text of digits stands for, with or without a point. -/
def ofDigits? (cs : List Char) : Option Binary64 :=
  let whole := cs.takeWhile Char.isDigit
  let fraction := (cs.dropWhile Char.isDigit).drop 1
  if (cs.dropWhile Char.isDigit).take 1 ∈ [[], ['.']] ∧ fraction.all Char.isDigit ∧
      whole ++ fraction ≠ [] then some (ofDecimal whole fraction)
  else none

/-- The number that a text without a sign stands for. -/
def ofUnsigned? (cs : List Char) : Option Binary64 :=
  if cs = "inf".toList then some (infinity false)
  else if cs = "NaN".toList then some (ofMagnitude false 0x7FF8000000000000)
  else ofDigits? cs

/-- The number that a text stands for, as far as texts of real numbers go: there is no exponent in
them. -/
def ofText? (text : String) : Option Binary64 :=
  match text.toList with
  | '-' :: cs => (ofUnsigned? cs).map neg
  | cs => ofUnsigned? cs

theorem toNat_ofMagnitude {m : Nat} (small : m < signBit) :
    (ofMagnitude false m).bits.toNat = m := by
  simp only [ofMagnitude, signBit, Bool.false_eq_true, if_false, UInt64.toNat_ofNat'] at *
  omega

/-- A real literal has no sign, and is a number, if it is not too large for one. -/
theorem ofDecimal_positive (whole fraction : List Char) :
    (ofDecimal whole fraction).negative = false ∧ (ofDecimal whole fraction).isNaN = false := by
  obtain ⟨m, small, same⟩ : ∃ m ≤ infinityMagnitude,
      ofDecimal whole fraction = ofMagnitude false m := by
    unfold ofDecimal ofRatio
    split
    · exact ⟨0, Nat.zero_le _, rfl⟩
    · exact ⟨_, Nat.min_le_left _ _, rfl⟩
  have below : infinityMagnitude < signBit := by decide
  have bits := toNat_ofMagnitude (Nat.lt_of_le_of_lt small below)
  rw [same, negative, isNaN, magnitude, bits, decide_eq_false_iff_not, decide_eq_false_iff_not,
    Nat.mod_eq_of_lt (Nat.lt_of_le_of_lt small below)]
  omega

/-- The text of a finite number without a sign is digits, a point and digits. -/
theorem sixPlaces_eq {x : Binary64} (positive : x.negative = false) (number : x.isNaN = false)
    (finite : x.isFinite = true) : ∃ whole fraction, x.sixPlaces = String.ofList
      (whole ++ '.' :: fraction) ∧ whole ≠ [] ∧ fraction ≠ [] ∧
      ∀ c ∈ whole ++ fraction, c.isDigit = true := by
  have bounded : x.isInfinite = false := by
    rw [isInfinite, decide_eq_false_iff_not]
    exact Nat.ne_of_lt (of_decide_eq_true finite)
  rw [sixPlaces, number, positive, bounded, signed]
  simp only [Bool.false_eq_true, if_false, Decimal.fixed]
  refine ⟨_, _, rfl, Decimal.digits_ne_nil _, Decimal.pad_ne_nil _ (Decimal.digits_ne_nil _), ?_⟩
  rw [List.forall_mem_append]
  exact ⟨Decimal.isDigit_digits _, Decimal.isDigit_pad (Decimal.isDigit_digits _)⟩

/-- Digits with a point between them are read as a literal is. -/
theorem ofText?_digits {whole fraction : List Char} (nonempty : whole ≠ [])
    (digits : ∀ c ∈ whole ++ fraction, c.isDigit = true) :
    ofText? (String.ofList (whole ++ '.' :: fraction)) = some (ofDecimal whole fraction) := by
  obtain ⟨c, cs, rfl⟩ := List.exists_cons_of_ne_nil nonempty
  obtain ⟨left, right⟩ := List.forall_mem_append.1 digits
  have first := left c (List.mem_cons_self ..)
  have front : (c :: cs ++ '.' :: fraction).takeWhile Char.isDigit = c :: cs := by
    rw [List.takeWhile_append_of_pos left]
    exact List.append_nil _
  have back : (c :: cs ++ '.' :: fraction).dropWhile Char.isDigit = '.' :: fraction := by
    rw [List.dropWhile_append_of_pos left]
    rfl
  have sign : c ≠ '-' ∧ c ≠ 'i' ∧ c ≠ 'N' := by
    refine ⟨?_, ?_, ?_⟩ <;> rintro rfl <;> cases first
  rw [ofText?, String.toList_ofList]
  split
  · rename_i tail same
    exact absurd (List.cons.inj same).1 sign.1
  · have inf : c :: cs ++ '.' :: fraction ≠ "inf".toList := fun same =>
      sign.2.1 (List.cons.inj same).1
    have nan : c :: cs ++ '.' :: fraction ≠ "NaN".toList := fun same =>
      sign.2.2 (List.cons.inj same).1
    rw [ofUnsigned?, if_neg inf, if_neg nan, ofDigits?, front, back]
    exact if_pos ⟨by simp, by simpa using right, by simp⟩

end Binary64

end Pseudocode
