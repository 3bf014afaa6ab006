import Pseudocode.Proofs.Image.RoundTrip
/-!
# Images that are cut off

Bytes that end inside an image are never taken for one. Wherever the cut falls, in a number, in the
eight bytes of a real or in a character of a text, reading wants more bytes, and finds no other
fault before: a number that is cut off ends in a byte that announces another, and the bytes of a
text are counted before they are looked at.

* `Wants`: a reader wants more of some bytes wherever they are cut off;
* `Wants.append`: one field behind another;
* `wants_readSequence`, `Constant.wants_read`, `Image.wants_readFields`: sequences, constants,
  images;
* `Image.decode_truncated`: every front part of the bytes of an image.
-/
namespace Pseudocode

namespace Wire

/-- Whatever front part of the bytes the reader is given, it wants more of them. -/
def Wants {α : Type} (read : Reader α) (bs : List UInt8) : Prop :=
  ∀ p, p <+: bs → p ≠ bs → read p = .error .endOfBytes

section
variable {α β : Type} {first : Reader α} {xs ys : List UInt8} {b : UInt8}

/-- No bytes cannot be cut off. -/
theorem Wants.nil (read : Reader α) : Wants read [] :=
  fun _ cut proper => absurd (List.prefix_nil.1 cut) proper

/-- Behind a byte, the cut falls before it or into what follows it. -/
theorem Wants.cons {read : Reader α} (none : read [] = .error .endOfBytes)
    (others : Wants (fun q => read (b :: q)) xs) : Wants read (b :: xs) := by
  intro p cut proper
  rcases List.prefix_cons_iff.1 cut with rfl | ⟨q, rfl, inside⟩
  · exact none
  · exact others q inside fun same => proper (same ▸ rfl)

/-- What is done with a value does not matter while there is none. -/
theorem Wants.bind (wants : Wants first xs)
    (next : α × List UInt8 → Except WireError (β × List UInt8)) :
    Wants (fun p => first p >>= next) xs := by
  intro p cut proper
  simp only [wants p cut proper]
  rfl

/-- One field behind another: the cut falls into the first, or into the second behind all of the
first. -/
theorem Wants.append {x : α} {next : α × List UInt8 → Except WireError (β × List UInt8)}
    (wants : Wants first xs) (whole : ∀ rest, first (xs ++ rest) = .ok (x, rest))
    (others : Wants (fun q => next (x, q)) ys) : Wants (fun p => first p >>= next) (xs ++ ys) := by
  intro p cut proper
  by_cases behind : xs <+: p
  · obtain ⟨q, rfl⟩ := behind
    rw [List.prefix_append_right_inj] at cut
    simp only [whole]
    exact others q cut fun same => proper (same ▸ rfl)
  · have inside : p <+: xs :=
      (List.prefix_or_prefix_of_prefix cut (List.prefix_append xs ys)).resolve_right behind
    exact wants.bind next p inside fun same => behind (same ▸ List.prefix_rfl)

end

/-! ## Numbers -/

/-- A number that is cut off ends in a byte that announces another, and it has not had all its
bytes. -/
theorem wants_readVarint (top left n : Nat) (fits : n < (top + 1) * Nat.pow 128 left)
    (h : top < 128) : Wants (readVarint top (left + 1)) (writeVarint n) := by
  induction left generalizing n with
  | zero =>
    rw [Nat.pow, Nat.mul_one] at fits
    rw [writeVarint, if_pos (by omega)]
    exact .cons rfl (.nil _)
  | succ left ih =>
    rw [writeVarint]
    split
    · exact .cons rfl (.nil _)
    · have byte : (UInt8.ofNat (n % 128 + 128)).toNat = n % 128 + 128 := by simp; omega
      have fits' : n / 128 < (top + 1) * Nat.pow 128 left := by
        rw [Nat.pow, Nat.mul_eq, ← Nat.mul_assoc] at fits
        exact Nat.div_lt_of_lt_mul (by rwa [Nat.mul_comm] at fits)
      refine .cons rfl fun q cut proper => ?_
      simp only
      rw [readVarint, byte, if_neg (by omega)]
      exact (ih _ fits').bind _ q cut proper

theorem wants_readNat32 {n : Nat} (small : n < UInt32.size) : Wants readNat32 (writeVarint n) :=
  wants_readVarint 15 4 n small (by decide)

theorem wants_readNat64 {n : Nat} (small : n < UInt64.size) : Wants readNat64 (writeVarint n) :=
  wants_readVarint 1 9 n small (by decide)

/-! ## Bytes -/

theorem wants_readByte (b : UInt8) : Wants readByte [b] := .cons rfl (.nil _)

theorem wants_readBytes (bs : List UInt8) : Wants (readBytes bs.length) bs := by
  intro p cut proper
  have shorter : p.length < bs.length :=
    Nat.lt_of_le_of_ne cut.length_le fun same => proper (cut.eq_of_length same)
  rw [readBytes, if_pos shorter]

theorem wants_readReal (x : Binary64) : Wants readReal (writeReal x) := by
  have bytes := wants_readBytes (writeReal x)
  rw [writeReal, length_writeFixed] at bytes
  exact bytes.bind _

theorem wants_readTruth (b : Bool) : Wants readTruth (writeTruth b) := (wants_readByte _).bind _

theorem wants_readBlock {bs : List UInt8} (small : bs.length < UInt64.size) :
    Wants readBlock (writeBlock bs) :=
  (wants_readNat64 small).append (readNat64_writeVarint small) (wants_readBytes bs)

/-- A text is not looked at before all its bytes are there. -/
theorem wants_readText {text : String} (small : (Text.bytes text).length < UInt64.size) :
    Wants readText (writeText text) :=
  (wants_readBlock small).bind _

/-! ## Sequences -/

section
variable {α : Type} {read : Reader α} {write : α → List UInt8} {xs : List α}

/-- The cut falls into one of the values, behind all of those before it. -/
theorem wants_readMany (undoes : ∀ x ∈ xs, ∀ rest, read (write x ++ rest) = .ok (x, rest))
    (wants : ∀ x ∈ xs, Wants read (write x)) :
    Wants (readMany read xs.length) (xs.flatMap write) := by
  induction xs with
  | nil => exact .nil _
  | cons x xs ih =>
    have others := ih (fun y inside => undoes y (by simp [inside])) fun y inside =>
      wants y (by simp [inside])
    rw [List.flatMap_cons]
    exact (wants x (by simp)).append (undoes x (by simp)) (others.bind _)

theorem wants_readSequence (small : xs.length < UInt64.size)
    (undoes : ∀ x ∈ xs, ∀ rest, read (write x ++ rest) = .ok (x, rest))
    (wants : ∀ x ∈ xs, Wants read (write x)) :
    Wants (readSequence read) (writeSequence write xs) :=
  (wants_readNat64 small).append (readNat64_writeVarint small) (wants_readMany undoes wants)

end

end Wire

open Wire

theorem LineRun.wants_decode (r : LineRun) : Wants decode r.encode :=
  (wants_readNat32 r.line.toNat_lt).append (readNat32_writeVarint r.line.toNat_lt)
    ((wants_readNat32 r.count.toNat_lt).bind _)

/-- A constant of which the kind is there wants what is left of it. -/
theorem Constant.wants_tagged {kind : Nat} {bs : List UInt8} (small : kind < UInt32.size)
    (wants : Wants (readKind kind) bs) : Wants read (writeVarint kind ++ bs) :=
  (wants_readNat32 small).append (readNat32_writeVarint small) wants

theorem Constant.wants_read {c : Constant}
    (sized : ∀ t, c = text t → (Text.bytes t).length < UInt64.size) : Wants read c.write := by
  cases c with
  | boolean b => exact wants_tagged (by decide) ((wants_readTruth b).bind _)
  | character x => exact wants_tagged (by decide) ((wants_readByte x).bind _)
  | real x => exact wants_tagged (by decide) ((wants_readReal x).bind _)
  | integer n => exact wants_tagged (by decide) ((wants_readNat64 (zigzag_lt n)).bind _)
  | text t => exact wants_tagged (by decide) ((wants_readText (sized t rfl)).bind _)

namespace Image
variable {image : Image} {p : List UInt8}

theorem wants_readFields (sized : image.Sized) : Wants readFields image.writeFields := by
  have text : ∀ c ∈ image.constants, ∀ t, c = .text t → (Text.bytes t).length < UInt64.size :=
    fun c inside t same => sized.texts t (same ▸ inside)
  have lines : Wants (readSequence LineRun.decode) (writeSequence LineRun.encode image.lines) :=
    wants_readSequence sized.lines (fun r _ => r.decode_encode) fun r _ => r.wants_decode
  have constants : Wants (readSequence Constant.read)
      (writeSequence Constant.write image.constants) :=
    wants_readSequence sized.constants (fun c inside => Constant.read_write (text c inside))
      fun c inside => Constant.wants_read (text c inside)
  rw [writeFields, List.append_assoc]
  exact (wants_readBlock sized.code).append (readBlock_writeBlock sized.code)
    (lines.append
      (readSequence_writeSequence sized.lines fun r _ => r.decode_encode) (constants.bind _))

/-- **Images that are cut off are found out.** Of the front parts of the bytes of an image, the one
without bytes is refused as empty, and each other one because more bytes are wanted. -/
theorem decode_truncated (sized : image.Sized) (cut : p <+: image.encode)
    (proper : p ≠ image.encode) :
    (p = [] → decode p = .error .empty) ∧
      (p ≠ [] → decode p = .error (.malformed .endOfBytes) ∧
        (ImageError.malformed .endOfBytes).message =
          "deserialization error: Hit the end of buffer, expected more data") := by
  refine ⟨fun none => none ▸ rfl, fun some => ⟨?_, rfl⟩⟩
  rcases List.prefix_cons_iff.1 cut with rfl | ⟨q, rfl, inside⟩
  · exact absurd rfl some
  · have wanted : readFields q = .error .endOfBytes :=
      wants_readFields sized q inside fun same => proper (same ▸ rfl)
    rw [decode, decodeFront, if_pos rfl, wanted]
    rfl

/-- A cut between the two bytes of the character of a text, behind a count of two bytes. -/
theorem decode_truncated_character :
    let image : Image := ⟨[0, 255], [⟨300, 2⟩], [.text "é"]⟩
    let p : List UInt8 := [1, 2, 0, 255, 1, 172, 2, 2, 1, 4, 2, 195]
    image.Sized ∧ image.encode = p ++ [169] ∧ decode p = .error (.malformed .endOfBytes) := by
  intro image p
  have sized : image.Sized := by
    refine ⟨by decide, by decide, by decide, fun t inside => ?_⟩
    obtain rfl : t = "é" := by simpa [image] using inside
    decide
  have whole : image.encode = p ++ [169] := by decide +kernel
  have proper : p ≠ image.encode := by simp [whole]
  exact ⟨sized, whole,
    ((decode_truncated sized (whole ▸ List.prefix_append p _) proper).2 (by decide)).1⟩

end Image

end Pseudocode
