import Pseudocode.Image.Basic
/-!
# Reading back what was written

Every writer of the image format has a reader that undoes it: in front of any other bytes, the bytes
of a value are read as that value, and the other bytes are left. What is written behind its number
can be read back just if the number fits in 64 bits (`Image.Sized`), as it does for all that is in
memory.

* `readSequence_writeSequence`: values behind their number, from the law of a single value;
* `Constant.read_write`: a constant of any kind;
* `decodeFront_encode`: an image, with the bytes behind it;
* `decode_encode_append`: decoding undoes encoding.
-/
namespace Pseudocode

namespace Wire

/-! ## Numbers -/

theorem readNat32_writeVarint {n : Nat} (small : n < UInt32.size) (rest : List UInt8) :
    readNat32 (writeVarint n ++ rest) = .ok (n, rest) :=
  readVarint_writeVarint 15 4 n rest (by decide) small

theorem readNat64_writeVarint {n : Nat} (small : n < UInt64.size) (rest : List UInt8) :
    readNat64 (writeVarint n ++ rest) = .ok (n, rest) :=
  readVarint_writeVarint 1 9 n rest (by decide) small

/-- A folded integer of 64 bits is a number of 64 bits. -/
theorem zigzag_lt (n : Int64) : zigzag n.toInt < UInt64.size := by
  have low := n.le_toInt
  have high := n.toInt_lt
  simp only [zigzag, UInt64.size]
  split <;> omega

/-! ## Bytes -/

theorem readBytes_append (bs rest : List UInt8) :
    readBytes bs.length (bs ++ rest) = .ok (bs, rest) := by
  simp [readBytes]

theorem length_writeFixed (count n : Nat) : (writeFixed count n).length = count := by
  induction count generalizing n with
  | zero => rfl
  | succ count ih => simp [writeFixed, ih]

theorem fixedValue_writeFixed {count n : Nat} (small : n < Nat.pow 256 count) :
    fixedValue (writeFixed count n) = n := by
  induction count generalizing n with
  | zero => simp at small; simp [writeFixed, fixedValue, small]
  | succ count ih =>
    have high : n / 256 < Nat.pow 256 count :=
      Nat.div_lt_of_lt_mul (by rwa [Nat.pow, Nat.mul_eq, Nat.mul_comm] at small)
    have byte : (UInt8.ofNat (n % 256)).toNat = n % 256 := by simp
    have value := ih high
    rw [fixedValue] at value
    rw [fixedValue, writeFixed, List.foldr_cons, value, byte]
    omega

theorem readReal_writeReal (x : Binary64) (rest : List UInt8) :
    readReal (writeReal x ++ rest) = .ok (x, rest) := by
  have bytes := readBytes_append (writeFixed 8 x.bits.toNat) rest
  rw [length_writeFixed] at bytes
  have value : fixedValue (writeFixed 8 x.bits.toNat) = x.bits.toNat :=
    fixedValue_writeFixed x.bits.toNat_lt
  simp [readReal, writeReal, bytes, bind, Except.bind, pure, Except.pure, value]

theorem readTruth_writeTruth (b : Bool) (rest : List UInt8) :
    readTruth (writeTruth b ++ rest) = .ok (b, rest) := by
  cases b <;> rfl

theorem readBlock_writeBlock {bs : List UInt8} (small : bs.length < UInt64.size)
    (rest : List UInt8) : readBlock (writeBlock bs ++ rest) = .ok (bs, rest) := by
  rw [readBlock, writeBlock, List.append_assoc, readNat64_writeVarint small]
  exact readBytes_append bs rest

theorem readText_writeText {text : String} (small : (Text.bytes text).length < UInt64.size)
    (rest : List UInt8) : readText (writeText text ++ rest) = .ok (text, rest) := by
  rw [readText, writeText, readBlock_writeBlock small]
  simp [bind, Except.bind, Text.ofBytes?_bytes, pure, Except.pure]

/-! ## Sequences -/

section
variable {α : Type} {read : Reader α} {write : α → List UInt8} {xs : List α}

/-- So many values as were written, by induction on them. -/
theorem readMany_flatMap (undoes : ∀ x ∈ xs, ∀ rest, read (write x ++ rest) = .ok (x, rest))
    (rest : List UInt8) : readMany read xs.length (xs.flatMap write ++ rest) = .ok (xs, rest) := by
  induction xs with
  | nil => rfl
  | cons x xs ih =>
    have first := undoes x (by simp) (xs.flatMap write ++ rest)
    have others := ih fun y inside => undoes y (by simp [inside])
    simp [readMany, first, others, bind, Except.bind, pure, Except.pure]

theorem readSequence_writeSequence (small : xs.length < UInt64.size)
    (undoes : ∀ x ∈ xs, ∀ rest, read (write x ++ rest) = .ok (x, rest)) (rest : List UInt8) :
    readSequence read (writeSequence write xs ++ rest) = .ok (xs, rest) := by
  rw [readSequence, writeSequence, List.append_assoc, readNat64_writeVarint small]
  exact readMany_flatMap undoes rest

end

end Wire

open Wire

theorem LineRun.decode_encode (r : LineRun) (rest : List UInt8) :
    LineRun.decode (r.encode ++ rest) = .ok (r, rest) := by
  rw [decode, encode, List.append_assoc, readNat32_writeVarint r.line.toNat_lt]
  simp [bind, Except.bind, readNat32_writeVarint r.count.toNat_lt, pure, Except.pure]

theorem Constant.read_tagged {kind : Nat} (small : kind < UInt32.size) (bs : List UInt8) :
    read (writeVarint kind ++ bs) = readKind kind bs := by
  rw [read, readNat32_writeVarint small]
  rfl

/-- A constant is read back; a text must have a length that can be written. -/
theorem Constant.read_write {c : Constant}
    (sized : ∀ t, c = text t → (Text.bytes t).length < UInt64.size) (rest : List UInt8) :
    read (c.write ++ rest) = .ok (c, rest) := by
  cases c with
  | boolean b =>
    rw [write, List.append_assoc, read_tagged (by decide), readKind, readTruth_writeTruth]
    rfl
  | character x =>
    rw [write, List.append_assoc, read_tagged (by decide)]
    rfl
  | real x =>
    rw [write, List.append_assoc, read_tagged (by decide), readKind, readReal_writeReal]
    rfl
  | integer n =>
    rw [write, List.append_assoc, read_tagged (by decide), readKind,
      readNat64_writeVarint (zigzag_lt n)]
    simp [bind, Except.bind, unzigzag_zigzag, pure, Except.pure]
  | text t =>
    rw [write, List.append_assoc, read_tagged (by decide), readKind,
      readText_writeText (sized t rfl)]
    rfl

namespace Image

/-- Whatever of the image is written behind its number has a number of 64 bits. -/
structure Sized (image : Image) : Prop where
  code : image.code.length < UInt64.size
  lines : image.lines.length < UInt64.size
  constants : image.constants.length < UInt64.size
  texts : ∀ t, .text t ∈ image.constants → (Text.bytes t).length < UInt64.size

/-- The fields of an image are read back one behind the other. -/
theorem readFields_writeFields {image : Image} (sized : image.Sized) (rest : List UInt8) :
    readFields (image.writeFields ++ rest) = .ok (image, rest) := by
  have lines := readSequence_writeSequence sized.lines
    fun r _ => LineRun.decode_encode r
  have constants := readSequence_writeSequence sized.constants
    fun c inside => Constant.read_write fun t same => sized.texts t (same ▸ inside)
  rw [readFields, writeFields, List.append_assoc, List.append_assoc,
    readBlock_writeBlock sized.code]
  simp [bind, Except.bind, lines, constants, pure, Except.pure]

theorem decodeFront_encode {image : Image} (sized : image.Sized) (rest : List UInt8) :
    decodeFront (image.encode ++ rest) = .ok (image, rest) := by
  rw [encode, List.cons_append, decodeFront, if_pos rfl, readFields_writeFields sized]
  rfl

/-- **Decoding undoes encoding**, whatever bytes stand behind the image. -/
theorem decode_encode_append {image : Image} (sized : image.Sized) (rest : List UInt8) :
    decode (image.encode ++ rest) = .ok image := by
  rw [decode, decodeFront_encode sized]
  rfl

/-- The ends of the ranges: a line and a count of 32 bits, a number that is none with a payload, the
least integer, and a text with characters of two and four bytes, in front of other bytes. -/
theorem decode_encode_append_extremes :
    let image : Image := ⟨[0, 255], [⟨0, 1⟩, ⟨4294967295, 4294967295⟩],
      [.boolean true, .character 255, .real ⟨0x7FF0000000000001⟩, .integer Int64.minValue,
        .text "é😀", .text ""]⟩
    image.Sized ∧ decode (image.encode ++ [1, 2, 255]) = .ok image := by
  intro image
  have sized : image.Sized := by
    refine ⟨by decide, by decide, by decide, fun t inside => ?_⟩
    simp only [image, List.mem_cons, reduceCtorEq, Constant.text.injEq, List.not_mem_nil, false_or,
      or_false] at inside
    rcases inside with rfl | rfl <;> decide
  exact ⟨sized, decode_encode_append sized _⟩

end Image

end Pseudocode
