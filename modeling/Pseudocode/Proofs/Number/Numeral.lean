import Mathlib
import Pseudocode.Proofs.Number.SixPlaces
/-!
# Decimal texts

A reader for decimal texts, with a sign and an exponent if there are any, and what becomes of a text
when the zeros at the end of its fraction are taken off: the number stays the same.

* `Trimmed`: numbers as they are written without zeros at their end;
* `trimmed_fixed`: a number whose places are all written becomes one of them when it is trimmed;
* `readUnsigned?_append`, `read?_signed`: what is read from such a number, the exponent behind it
  and the sign in front.
-/
namespace Pseudocode.Decimal

/-! ## Reading -/

/-- The number that digits stand for, with a point between them or without one. -/
def readFraction? (text : List Char) : Option ℚ :=
  let whole := text.takeWhile (· != '.')
  let fraction := (text.dropWhile (· != '.')).drop 1
  if whole ≠ [] ∧ (whole ++ fraction).all Char.isDigit then
    some (value (whole ++ fraction) / 10 ^ fraction.length)
  else none

/-- The exponent that is written with a sign behind `e`; no text is the exponent zero. -/
def readExponent? : List Char → Option ℤ
  | [] => some 0
  | 'e' :: sign :: ds =>
    if ds = [] ∨ !ds.all Char.isDigit then none
    else if sign = '+' then some (value ds)
    else if sign = '-' then some (-value ds)
    else none
  | _ => none

def readUnsigned? (text : List Char) : Option ℚ := do
  let mantissa ← readFraction? (text.takeWhile (· != 'e'))
  let exponent ← readExponent? (text.dropWhile (· != 'e'))
  return mantissa * 10 ^ exponent

/-- The number that a decimal text stands for, with a minus in front of it or without one. -/
def read? : List Char → Option ℚ
  | '-' :: text => (readUnsigned? text).map fun q => -q
  | text => readUnsigned? text

/-! ## Numbers without zeros at their end -/

/-- Digits that stand for a number, or digits with a point between them, the last of which is not
zero. -/
inductive Trimmed : List Char → ℚ → Prop where
  | whole {ds : List Char} (nonempty : ds ≠ []) (digits : ∀ c ∈ ds, c.isDigit = true) :
    Trimmed ds (value ds)
  | fraction {ds es : List Char} (nonempty : ds ≠ []) (digits : ∀ c ∈ ds ++ es, c.isDigit = true)
    (more : es ≠ []) (last : es.getLast? ≠ some '0') :
    Trimmed (ds ++ '.' :: es) (value (ds ++ es) / 10 ^ es.length)

theorem ne_of_isDigit {c : Char} (digit : c.isDigit = true) : c ≠ '.' ∧ c ≠ 'e' ∧ c ≠ '-' := by
  refine ⟨?_, ?_, ?_⟩ <;> rintro rfl <;> cases digit

namespace Trimmed
variable {text : List Char} {q : ℚ}

theorem readFraction? (trimmed : Trimmed text q) : readFraction? text = some q := by
  cases trimmed with
  | whole nonempty digits =>
    have pass : ∀ c ∈ text, (c != '.') = true := fun c inside => by
      simpa using (ne_of_isDigit (digits c inside)).1
    have front : text.takeWhile (· != '.') = text := List.takeWhile_eq_self_iff.2 pass
    have back : text.dropWhile (· != '.') = [] := List.dropWhile_eq_nil_iff.2 pass
    rw [Decimal.readFraction?, front, back]
    simpa [nonempty] using digits
  | @fraction ds es nonempty digits _ _ =>
    have pass : ∀ c ∈ ds, (c != '.') = true := fun c inside => by
      simpa using (ne_of_isDigit (digits c (List.mem_append_left _ inside))).1
    have front : (ds ++ '.' :: es).takeWhile (· != '.') = ds := by
      rw [List.takeWhile_append_of_pos pass]
      exact List.append_nil ds
    have back : (ds ++ '.' :: es).dropWhile (· != '.') = '.' :: es := by
      rw [List.dropWhile_append_of_pos pass]
      rfl
    rw [Decimal.readFraction?, front, back]
    exact if_pos ⟨nonempty, List.all_eq_true.2 digits⟩

/-- There are no other characters than digits and the point. -/
theorem isDigit_or (trimmed : Trimmed text q) : ∀ c ∈ text, c.isDigit = true ∨ c = '.' := by
  cases trimmed with
  | whole _ digits => exact fun c inside => .inl (digits c inside)
  | fraction _ digits _ _ =>
    intro c inside
    rw [List.mem_append, List.mem_cons] at inside
    rcases inside with inside | rfl | inside
    · exact .inl (digits c (List.mem_append_left _ inside))
    · exact .inr rfl
    · exact .inl (digits c (List.mem_append_right _ inside))

theorem ne_nil (trimmed : Trimmed text q) : text ≠ [] := by
  cases trimmed with
  | whole nonempty _ => exact nonempty
  | fraction _ _ _ _ => exact List.append_ne_nil_of_right_ne_nil _ (List.cons_ne_nil _ _)

theorem head?_ne (trimmed : Trimmed text q) : text.head? ≠ some '-' := by
  intro first
  rcases trimmed.isDigit_or _ (List.mem_of_mem_head? first) with digit | same
  · exact (ne_of_isDigit digit).2.2 rfl
  · cases same

/-- The number ends where an exponent begins. -/
theorem split (trimmed : Trimmed text q) (rest : List Char) :
    (text ++ rest).takeWhile (· != 'e') = text ++ rest.takeWhile (· != 'e') ∧
      (text ++ rest).dropWhile (· != 'e') = rest.dropWhile (· != 'e') := by
  have pass : ∀ c ∈ text, (c != 'e') = true := fun c inside => by
    rcases trimmed.isDigit_or c inside with digit | rfl
    · simpa using (ne_of_isDigit digit).2.1
    · rfl
  exact ⟨List.takeWhile_append_of_pos pass, List.dropWhile_append_of_pos pass⟩

/-- No point is at the end, and behind a point no zero. -/
theorem getLast?_ne (trimmed : Trimmed text q) :
    text.getLast? ≠ some '.' ∧ ('.' ∈ text → text.getLast? ≠ some '0') := by
  cases trimmed with
  | whole _ digits =>
    refine ⟨fun ends => ?_, fun point => ?_⟩
    · exact (ne_of_isDigit (digits _ (List.mem_of_getLast? ends))).1 rfl
    · exact absurd rfl (ne_of_isDigit (digits _ point)).1
  | @fraction ds es _ digits more last =>
    rw [List.getLast?_append_of_ne_nil _ (List.cons_ne_nil _ _),
      List.getLast?_cons_of_ne_nil more]
    refine ⟨fun ends => ?_, fun _ => last⟩
    exact (ne_of_isDigit (digits _ (List.mem_append_right _ (List.mem_of_getLast? ends)))).1 rfl

end Trimmed

theorem readExponent?_eq {ds : List Char} {e : ℤ} (nonempty : ds ≠ [])
    (digits : ∀ c ∈ ds, c.isDigit = true) (number : value ds = e.natAbs) :
    readExponent? ('e' :: (if e < 0 then '-' else '+') :: ds) = some e := by
  rw [readExponent?, if_neg (by simpa [nonempty] using digits)]
  split <;> rename_i sign
  · rw [if_neg (by decide), if_pos rfl, number, Int.natCast_natAbs, abs_of_neg sign, neg_neg]
  · rw [if_pos rfl, number, Int.natCast_natAbs, abs_of_nonneg (not_lt.1 sign)]

/-- What is read in front of an exponent, or of the end. -/
theorem readUnsigned?_append {text rest : List Char} {q : ℚ} {e : ℤ} (trimmed : Trimmed text q)
    (stop : rest.takeWhile (· != 'e') = []) (whole : rest.dropWhile (· != 'e') = rest)
    (exponent : readExponent? rest = some e) :
    readUnsigned? (text ++ rest) = some (q * 10 ^ e) := by
  obtain ⟨front, back⟩ := trimmed.split rest
  rw [stop, List.append_nil] at front
  rw [whole] at back
  rw [readUnsigned?, front, back, trimmed.readFraction?, exponent]
  rfl

/-- A text that begins with no minus is read without one, and with one as the opposite number. -/
theorem read?_signed {text : List Char} {r : ℚ} (bare : text.head? ≠ some '-')
    (read : readUnsigned? text = some r) (negative : Bool) :
    read? (Binary64.signed negative text) = some (if negative then -r else r) := by
  cases negative with
  | false =>
    rw [Binary64.signed, if_neg (by decide), read?, read]
    · rfl
    · rintro cs rfl
      exact bare rfl
  | true =>
    rw [Binary64.signed, if_pos rfl, read?, read]
    rfl

/-! ## Trimming -/

/-- What is trimmed off is so many of the character. -/
theorem trimEnd_append (c : Char) (text : List Char) :
    ∃ k, text = trimEnd c text ++ List.replicate k c := by
  refine ⟨(List.rtakeWhile (· == c) text).length, ?_⟩
  have all : ∀ d ∈ List.rtakeWhile (· == c) text, d = c := fun d inside => by
    simpa using List.mem_rtakeWhile_imp inside
  rw [← List.eq_replicate_of_mem all]
  exact (List.rdropWhile_append_rtakeWhile (p := (· == c)) (l := text)).symm

theorem getLast?_trimEnd (c : Char) (text : List Char) : (trimEnd c text).getLast? ≠ some c := by
  intro ends
  obtain ⟨nonempty, last⟩ := List.mem_getLast?_eq_getLast ends
  exact List.rdropWhile_last_not (· == c) text nonempty (beq_iff_eq.2 last.symm)

theorem trimEnd_replicate {c : Char} {text : List Char} (last : text.getLast? ≠ some c) (k : ℕ) :
    trimEnd c (text ++ List.replicate k c) = text := by
  have all : ∀ d ∈ List.replicate k c, (d == c) = true := fun d inside => by
    simpa using (List.mem_replicate.1 inside).2
  rw [trimEnd, List.reverse_append, List.reverse_replicate, List.dropWhile_append_of_pos all]
  refine List.rdropWhile_eq_self_iff.2 fun nonempty same => last ?_
  rw [List.getLast?_eq_some_getLast nonempty]
  exact congrArg _ (by simpa using same)

theorem length_digits_le {n places : ℕ} (small : n < 10 ^ places) (pos : 0 < places) :
    (digits n).length ≤ places := by
  fun_induction digits n generalizing places with
  | case1 n one => exact pos
  | case2 n large ih =>
    obtain _ | _ | places := places
    · omega
    · omega
    · rw [List.length_append, List.length_singleton]
      exact Nat.succ_le_succ (ih (by omega) (Nat.succ_pos _))

theorem length_pad {places : ℕ} {ds : List Char} (short : ds.length ≤ places) :
    (pad places ds).length = places := by
  rw [pad, List.length_append, List.length_replicate]
  omega

theorem fixed_zero (n : ℕ) : fixed 0 n = digits n := by
  rw [fixed, if_pos rfl, List.append_nil]
  exact congrArg digits (Nat.div_one n)

theorem fixed_of_pos {places : ℕ} (pos : 0 < places) (n : ℕ) : fixed places n =
    digits (n / 10 ^ places) ++ '.' :: pad places (digits (n % 10 ^ places)) := by
  rw [fixed, if_neg pos.ne']
  rfl

theorem getLast?_ne_of_digits {ds : List Char} (digits : ∀ c ∈ ds, c.isDigit = true) :
    ds.getLast? ≠ some '.' := fun ends =>
  (ne_of_isDigit (digits _ (List.mem_of_getLast? ends))).1 rfl

/-- The zeros at the end of a fraction are trimmed, and the point with the last digit: the same
number is left. -/
theorem trimmed_of_digits {ds es : List Char} (nonempty : ds ≠ [])
    (digits : ∀ c ∈ ds ++ es, c.isDigit = true) :
    Trimmed (trimFraction (ds ++ '.' :: es)) (value (ds ++ es) / 10 ^ es.length) := by
  have last := getLast?_trimEnd '0' es
  obtain ⟨k, parts⟩ := trimEnd_append '0' es
  generalize trimEnd '0' es = front at *
  subst parts
  rw [← List.append_assoc, List.forall_mem_append] at digits
  have number : (value (ds ++ (front ++ List.replicate k '0')) : ℚ) /
      10 ^ (front ++ List.replicate k '0').length = value (ds ++ front) / 10 ^ front.length := by
    rw [← List.append_assoc, value_append, value_replicate, List.length_append,
      List.length_replicate, pow_add, Nat.pow_eq]
    push_cast
    rw [add_zero, mul_div_mul_right _ _ (by positivity)]
  have front_last : (ds ++ '.' :: front).getLast? ≠ some '0' := by
    rcases eq_or_ne front [] with rfl | more
    · simp
    · rwa [List.getLast?_append_of_ne_nil _ (List.cons_ne_nil _ _),
        List.getLast?_cons_of_ne_nil more]
  rw [trimFraction, if_pos (List.mem_append_right _ (List.mem_cons_self ..)), number,
    ← List.cons_append, ← List.append_assoc, trimEnd_replicate front_last]
  rcases eq_or_ne front [] with rfl | more
  · have trimmed := Trimmed.whole nonempty (List.forall_mem_append.1 digits.1).1
    have bare := trimEnd_replicate (getLast?_ne_of_digits (List.forall_mem_append.1 digits.1).1) 1
    rw [List.replicate_one] at bare
    rw [bare]
    simpa using trimmed
  · have ends : (ds ++ '.' :: front).getLast? ≠ some '.' := by
      rw [List.getLast?_append_of_ne_nil _ (List.cons_ne_nil _ _),
        List.getLast?_cons_of_ne_nil more]
      exact getLast?_ne_of_digits (List.forall_mem_append.1 digits.1).2
    have bare := trimEnd_replicate ends 0
    rw [List.replicate_zero, List.append_nil] at bare
    rw [bare]
    exact .fraction nonempty digits.1 more last

/-- A number whose places are all written is trimmed without becoming another. -/
theorem trimmed_fixed (places n : ℕ) :
    Trimmed (trimFraction (fixed places n)) (n / 10 ^ places) := by
  rcases Nat.eq_zero_or_pos places with rfl | pos
  · have point : '.' ∉ digits n := fun inside => (ne_of_isDigit (isDigit_digits _ _ inside)).1 rfl
    have trimmed := Trimmed.whole (digits_ne_nil n) (isDigit_digits n)
    rw [value_digits] at trimmed
    rw [fixed_zero, trimFraction, if_neg point]
    simpa using trimmed
  · have small : n % 10 ^ places < 10 ^ places := Nat.mod_lt _ (Nat.pow_pos (by decide))
    have length := length_pad (length_digits_le small pos)
    have number :
        value (digits (n / 10 ^ places) ++ pad places (digits (n % 10 ^ places))) = n := by
      rw [value_append, value_pad, value_digits, value_digits, length]
      exact Nat.div_add_mod' n (10 ^ places)
    have fraction : ∀ c ∈ pad places (digits (n % 10 ^ places)), c.isDigit = true :=
      isDigit_pad (isDigit_digits _)
    have trimmed := trimmed_of_digits (digits_ne_nil (n / 10 ^ places))
      (List.forall_mem_append.2 ⟨isDigit_digits _, fraction⟩)
    rwa [number, length, ← fixed_of_pos pos] at trimmed

end Pseudocode.Decimal
