import Pseudocode.Text.Bytes
/-!
# Characters and their bytes

A character below 128 is one byte of that number. Any other is a first byte from 192 on and bytes
from 128 to 191 behind it, so a byte below 128 is always a character of its own, and the bytes
between two characters are told from those inside one. A test that sees the same in all bytes of a
character (`Bytewise`) cuts the bytes of a text where the test of characters cuts the text.

* `utf8EncodeChar_of_lt`, `utf8EncodeChar_of_le`: the bytes of a character;
* `bytes_eq_encode`, `length_encode`: the bytes of a text are those of its characters;
* `Bytewise.takeWhile`, `Bytewise.dropWhile`, `head?_encode`, `count_encode`: what is seen in bytes
  and in characters.
-/
namespace Pseudocode.Text

/-! ## One character -/

theorem utf8EncodeChar_of_lt {c : Char} (narrow : c.toNat < 128) :
    String.utf8EncodeChar c = [UInt8.ofNat c.toNat] :=
  if_pos (Nat.le_of_lt_succ narrow)

/-- A byte below 128 is the character of its number. -/
theorem ofUInt8_ofNat_toNat {c : Char} (narrow : c.toNat < 128) :
    Char.ofUInt8 (UInt8.ofNat c.toNat) = c := by
  rw [← Char.toNat_inj]
  show (UInt8.ofNat c.toNat).toUInt32.toNat = c.toNat
  rw [UInt8.toNat_toUInt32, UInt8.toNat_ofNat']
  omega

theorem utf8Size_of_lt {c : Char} (narrow : c.toNat < 128) : c.utf8Size = 1 := by
  rw [← String.length_utf8EncodeChar, utf8EncodeChar_of_lt narrow]
  rfl

/-- Characters below 128 are told apart by their bytes. -/
theorem ofNat_toNat_eq_iff {c d : Char} (small : c.toNat < 128) (narrow : d.toNat < 128) :
    UInt8.ofNat c.toNat = UInt8.ofNat d.toNat ↔ c = d := by
  refine ⟨fun same => ?_, fun same => by rw [same]⟩
  rw [← ofUInt8_ofNat_toNat small, same, ofUInt8_ofNat_toNat narrow]

/-- A byte that is not the first of its character. -/
def isContinuation (b : UInt8) : Bool := b &&& 0xC0 == 0x80

theorem isContinuation_eq (b : UInt8) :
    isContinuation b = decide (128 ≤ b.toNat ∧ b.toNat < 192) := by
  have all : ∀ n < 256, isContinuation (UInt8.ofNat n) = decide (128 ≤ n ∧ n < 192) := by
    decide +kernel
  simpa using all b.toNat b.toNat_lt

/-- The bytes of a character that has several. -/
theorem utf8EncodeChar_of_le {c : Char} (wide : 128 ≤ c.toNat) :
    ∃ first more, String.utf8EncodeChar c = first :: more ∧ 192 ≤ first.toNat ∧
      ∀ b ∈ more, isContinuation b = true := by
  have rest (n : Nat) : isContinuation (UInt8.ofNat (n % 64 + 128)) = true := by
    rw [isContinuation_eq, UInt8.toNat_ofNat', decide_eq_true_eq]
    omega
  have several : ¬ c.val.toNat ≤ 127 := Nat.not_le_of_lt wide
  unfold String.utf8EncodeChar
  dsimp only
  rw [if_neg several]
  split
  · refine ⟨_, _, rfl, ?_, List.forall_mem_singleton.2 (rest _)⟩
    rw [UInt8.toNat_ofNat']
    omega
  split
  · refine ⟨_, _, rfl, ?_, List.forall_mem_cons.2 ⟨rest _, List.forall_mem_singleton.2 (rest _)⟩⟩
    rw [UInt8.toNat_ofNat']
    omega
  · refine ⟨_, _, rfl, ?_, List.forall_mem_cons.2 ⟨rest _, List.forall_mem_cons.2
      ⟨rest _, List.forall_mem_singleton.2 (rest _)⟩⟩⟩
    rw [UInt8.toNat_ofNat']
    omega

/-- All bytes of a character that has several are from 128 on. -/
theorem le_of_mem_utf8EncodeChar {c : Char} (wide : 128 ≤ c.toNat) {b : UInt8}
    (inside : b ∈ String.utf8EncodeChar c) : 128 ≤ b.toNat := by
  obtain ⟨first, more, bytes, high, continued⟩ := utf8EncodeChar_of_le wide
  rw [bytes] at inside
  rcases List.mem_cons.1 inside with rfl | inside
  · omega
  · have := continued b inside
    rw [isContinuation_eq, decide_eq_true_eq] at this
    exact this.1

/-! ## Texts -/

/-- The bytes of the characters. -/
def encode (cs : List Char) : List UInt8 := cs.flatMap String.utf8EncodeChar

@[simp] theorem encode_nil : encode [] = [] := rfl

@[simp] theorem encode_cons (c : Char) (cs : List Char) :
    encode (c :: cs) = String.utf8EncodeChar c ++ encode cs := rfl

@[simp] theorem encode_append (xs ys : List Char) : encode (xs ++ ys) = encode xs ++ encode ys :=
  List.flatMap_append

theorem bytes_eq_encode (text : String) : bytes text = encode text.toList := by
  rw [bytes, String.toUTF8_eq_toByteArray, ← String.ofList_toList (s := text),
    String.toByteArray_ofList, String.toList_ofList, List.utf8Encode, List.data_toByteArray,
    encode]

theorem bytes_injective {s t : String} (same : bytes s = bytes t) : s = t := by
  have read := congrArg ofBytes? same
  rw [ofBytes?_bytes, ofBytes?_bytes] at read
  exact Option.some.inj read

/-- Characters are told by their bytes. -/
theorem encode_injective {xs ys : List Char} (same : encode xs = encode ys) : xs = ys := by
  refine String.ofList_injective (bytes_injective ?_)
  rw [bytes_eq_encode, bytes_eq_encode, String.toList_ofList, String.toList_ofList, same]

theorem length_encode (cs : List Char) : (encode cs).length = byteLength cs := by
  induction cs with
  | nil => rfl
  | cons c cs ih =>
    rw [encode_cons, List.length_append, ih, String.length_utf8EncodeChar, byteLength_cons]

theorem length_le_byteLength (cs : List Char) : cs.length ≤ byteLength cs := by
  induction cs with
  | nil => exact Nat.le_refl 0
  | cons c cs ih =>
    have := c.utf8Size_pos
    rw [List.length_cons, byteLength_cons]
    omega

/-! ## Telling characters by their bytes -/

/-- In each byte of a character `p` sees what `q` sees in the character. -/
def Bytewise {α : Type} (p : UInt8 → α) (q : Char → α) : Prop :=
  ∀ c, ∀ b ∈ String.utf8EncodeChar c, p b = q c

namespace Bytewise
variable {α : Type}

/-- What sees the same in all characters from 128 on may take bytes for characters. -/
theorem of_wide {q : Char → α} {other : α} (wide : ∀ c : Char, 128 ≤ c.toNat → q c = other) :
    Bytewise (fun b => q (Char.ofUInt8 b)) q := by
  intro c b inside
  dsimp only
  by_cases narrow : c.toNat < 128
  · rw [utf8EncodeChar_of_lt narrow, List.mem_singleton] at inside
    rw [inside, ofUInt8_ofNat_toNat narrow]
  · have large := Nat.le_of_not_lt narrow
    rw [wide c large]
    exact wide _ (le_of_mem_utf8EncodeChar large inside)

/-- Whether a character is a given one below 128, each of its bytes tells. -/
theorem beq {d : Char} (narrow : d.toNat < 128) :
    Bytewise (· == UInt8.ofNat d.toNat) (· == d) := by
  intro c b inside
  rw [Bool.eq_iff_iff, beq_iff_eq, beq_iff_eq]
  by_cases small : c.toNat < 128
  · rw [utf8EncodeChar_of_lt small, List.mem_singleton] at inside
    rw [inside, ofNat_toNat_eq_iff small narrow]
  · have large := Nat.le_of_not_lt small
    refine ⟨fun same => ?_, fun same => absurd narrow (same ▸ small)⟩
    have high := le_of_mem_utf8EncodeChar large inside
    rw [same, UInt8.toNat_ofNat'] at high
    omega

theorem comp {β : Type} {p : UInt8 → α} {q : Char → α} (same : Bytewise p q) (f : α → β) :
    Bytewise (fun b => f (p b)) (fun c => f (q c)) :=
  fun c b inside => congrArg f (same c b inside)

variable {p p' : UInt8 → Bool} {q q' : Char → Bool}

theorem and (left : Bytewise p q) (right : Bytewise p' q') :
    Bytewise (fun b => p b && p' b) (fun c => q c && q' c) :=
  fun c b inside => by
    dsimp only
    rw [left c b inside, right c b inside]

theorem takeWhile (same : Bytewise p q) (cs : List Char) :
    (encode cs).takeWhile p = encode (cs.takeWhile q) := by
  induction cs with
  | nil => rfl
  | cons c cs ih =>
    rw [encode_cons, List.takeWhile_cons]
    cases held : q c with
    | true =>
      have all : ∀ b ∈ String.utf8EncodeChar c, p b = true := fun b inside => by
        rw [same c b inside, held]
      rw [List.takeWhile_append_of_pos all, ih]
      rfl
    | false =>
      obtain ⟨b, more, bytes⟩ := List.exists_cons_of_ne_nil (String.utf8EncodeChar_ne_nil (c := c))
      have first : p b = false := by rw [same c b (by simp [bytes]), held]
      rw [bytes, List.cons_append, List.takeWhile_cons, first]
      rfl

theorem dropWhile (same : Bytewise p q) (cs : List Char) :
    (encode cs).dropWhile p = encode (cs.dropWhile q) := by
  have whole := List.takeWhile_append_dropWhile (p := p) (l := encode cs)
  have parts := congrArg encode (List.takeWhile_append_dropWhile (p := q) (l := cs))
  rw [same.takeWhile] at whole
  rw [encode_append] at parts
  exact List.append_cancel_left (whole.trans parts.symm)

/-- Whether a character is a NUL. -/
theorem nul : Bytewise (· != 0) (· != '\x00') := (beq (d := '\x00') (by decide)).comp (!·)

end Bytewise

/-- The first byte of a text stands for the first character. -/
theorem head?_encode {α : Type} {p : UInt8 → α} {q : Char → α} (same : Bytewise p q)
    (cs : List Char) : (encode cs).head?.map p = cs.head?.map q := by
  cases cs with
  | nil => rfl
  | cons c cs =>
    obtain ⟨b, more, bytes⟩ := List.exists_cons_of_ne_nil (String.utf8EncodeChar_ne_nil (c := c))
    rw [encode_cons, bytes, List.cons_append, List.head?_cons, List.head?_cons, Option.map_some,
      Option.map_some, same c b (by simp [bytes])]

/-- No text begins inside a character. -/
theorem isContinuation_head?_encode (cs : List Char) {b : UInt8}
    (first : (encode cs).head? = some b) : isContinuation b = false := by
  cases cs with
  | nil => cases first
  | cons c cs =>
    rw [encode_cons] at first
    rw [isContinuation_eq, decide_eq_false_iff_not]
    by_cases narrow : c.toNat < 128
    · rw [utf8EncodeChar_of_lt narrow] at first
      obtain rfl := Option.some.inj first
      rw [UInt8.toNat_ofNat']
      omega
    · obtain ⟨b', more, bytes, high, -⟩ := utf8EncodeChar_of_le (Nat.le_of_not_lt narrow)
      rw [bytes] at first
      obtain rfl := Option.some.inj first
      omega

/-- A byte below 128 is there as often as its character. -/
theorem count_encode {d : Char} (narrow : d.toNat < 128) (cs : List Char) :
    (encode cs).count (UInt8.ofNat d.toNat) = cs.count d := by
  induction cs with
  | nil => rfl
  | cons c cs ih =>
    rw [encode_cons, List.count_append, ih, List.count_cons, Nat.add_comm]
    congr 1
    by_cases small : c.toNat < 128
    · have bytes := utf8EncodeChar_of_lt small
      have same : (UInt8.ofNat c.toNat == UInt8.ofNat d.toNat) = (c == d) :=
        Bytewise.beq narrow c _ (bytes ▸ List.mem_cons_self)
      rw [bytes, List.count_singleton, same]
    · have large := Nat.le_of_not_lt small
      have other : ¬ (c == d) = true := fun same => small ((beq_iff_eq.1 same).symm ▸ narrow)
      rw [if_neg other, List.count_eq_zero]
      intro inside
      have high := le_of_mem_utf8EncodeChar large inside
      rw [UInt8.toNat_ofNat'] at high
      omega

end Pseudocode.Text
