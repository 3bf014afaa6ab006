import Mathlib
import Pseudocode.Proofs.Image.RoundTrip
import Pseudocode.Proofs.Results
/-!
# No shorter image is read

An image can be written in many ways, since a number may have more bytes than it needs: a length, a
count, the kind of a constant, a line, a folded integer. Whatever bytes are read as an image, the
writer needs no more for it, and as many only if it writes the very same. Every field is compared by
itself, and fields one behind the other add up.

* `Shortest`: bytes that are written against bytes that were read;
* `Took`: what a reader took from the front of some bytes, and what is written for it;
* `Took.bind`: one field behind another;
* `took_readVarint`: a number, by induction on the bytes it may have;
* `took_readSequence`, `Constant.took_read`, `Image.took_readFields`: sequences, constants, images;
* `Image.encode_shortest`: images and their version.
-/
namespace Pseudocode

namespace Wire

/-- What is written is no longer than what was read, and is the same if it is as long. -/
structure Shortest (written used : List UInt8) : Prop where
  le : written.length ≤ used.length
  eq : written.length = used.length → written = used

theorem Shortest.refl (bs : List UInt8) : Shortest bs bs := ⟨Nat.le_refl _, fun _ => rfl⟩

theorem Shortest.append {xs ys used used' : List UInt8} (front : Shortest xs used)
    (back : Shortest ys used') : Shortest (xs ++ ys) (used ++ used') := by
  have short := front.le
  have short' := back.le
  constructor
  · rw [List.length_append, List.length_append]
    omega
  · intro same
    rw [List.length_append, List.length_append] at same
    rw [front.eq (by omega), back.eq (by omega)]

/-- The reader took bytes from the front of `bs` as the value `x`, as it does whatever stands behind
them, and left `rest`; `written` is the shortest form of these bytes. -/
def Took {α : Type} (read : Reader α) (bs : List UInt8) (x : α) (rest written : List UInt8) :
    Prop :=
  ∃ used, bs = used ++ rest ∧ (∀ more, read (used ++ more) = .ok (x, more)) ∧
    Shortest written used

section
variable {α β : Type} {first : Reader α} {bs mid rest xs ys : List UInt8} {x : α} {y : β}

/-- One field behind another. -/
theorem Took.bind {next : α × List UInt8 → Except WireError (β × List UInt8)}
    (front : Took first bs x mid xs) (back : Took (fun q => next (x, q)) mid y rest ys) :
    Took (fun p => first p >>= next) bs y rest (xs ++ ys) := by
  obtain ⟨used, rfl, reads, short⟩ := front
  obtain ⟨used', rfl, reads', short'⟩ := back
  refine ⟨used ++ used', (List.append_assoc ..).symm, fun more => ?_, short.append short'⟩
  rw [List.append_assoc]
  simp only [reads]
  exact reads' more

/-- What is done with the value of a field takes no bytes. -/
theorem Took.map (took : Took first bs x rest xs) (f : α → β) :
    Took (fun p => first p >>= fun q => pure (f q.1, q.2)) bs (f x) rest xs := by
  rw [← List.append_nil xs]
  exact took.bind ⟨[], rfl, fun _ => rfl, .refl []⟩

end

/-! ## Numbers -/

/-- A number has no more bits than its bytes carry. -/
theorem lt_of_readVarint {top left n : Nat} {bs rest : List UInt8}
    (read : readVarint top (left + 1) bs = .ok (n, rest)) :
    n < (top + 1) * Nat.pow 128 left := by
  induction left generalizing n bs with
  | zero =>
    cases bs with
    | nil => cases read
    | cons b bs =>
      rw [readVarint] at read
      split at read
      · split at read
        · cases read
        · cases read
          rw [Nat.pow]
          omega
      · obtain ⟨none, others, -⟩ := bind_eq_ok.1 read
        cases others
  | succ left ih =>
    cases bs with
    | nil => cases read
    | cons b bs =>
      rw [readVarint] at read
      rw [Nat.pow, Nat.mul_eq, ← Nat.mul_assoc]
      have several : 0 < (top + 1) * Nat.pow 128 left :=
        Nat.mul_pos (Nat.succ_pos _) (Nat.pow_pos (by decide))
      split at read
      · cases read
        omega
      · obtain ⟨⟨high, behind⟩, others, whole⟩ := bind_eq_ok.1 read
        cases whole
        have := ih others
        have := b.toNat_lt
        omega

/-- A number may have groups of zeros behind it, which the writer leaves out. -/
theorem took_readVarint {top left n : Nat} {bs rest : List UInt8}
    (read : readVarint top left bs = .ok (n, rest)) :
    Took (readVarint top left) bs n rest (writeVarint n) := by
  induction left generalizing n bs with
  | zero => cases read
  | succ left ih =>
    cases bs with
    | nil => cases read
    | cons b bs =>
      rw [readVarint] at read
      split at read
      · rename_i last
        split at read
        · cases read
        rename_i fits
        cases read
        refine ⟨[b], rfl, fun more => ?_, ?_⟩
        · rw [List.singleton_append, readVarint, if_pos last, if_neg fits]
        · rw [writeVarint, if_pos last, UInt8.ofNat_toNat]
          exact .refl _
      · rename_i more
        obtain ⟨⟨high, behind⟩, others, whole⟩ := bind_eq_ok.1 read
        cases whole
        obtain ⟨used, rfl, reads, short⟩ := ih others
        have byte := b.toNat_lt
        refine ⟨b :: used, rfl, fun bs => ?_, ?_⟩
        · rw [List.cons_append, readVarint, if_neg more, reads]
          rfl
        rw [writeVarint]
        split
        · -- The groups behind the first byte are all zero, and at least one of them is there.
          rename_i small
          obtain rfl : high = 0 := by omega
          have zeros := short.le
          rw [writeVarint, if_pos (by decide)] at zeros
          constructor
          · exact Nat.succ_le_succ (Nat.zero_le _)
          · intro same
            simp only [List.length_cons, List.length_nil] at zeros same
            omega
        · have low : (b.toNat - 128 + 128 * high) % 128 + 128 = b.toNat := by omega
          have rest : (b.toNat - 128 + 128 * high) / 128 = high := by omega
          rw [low, rest, UInt8.ofNat_toNat]
          exact (Shortest.refl [b]).append short

theorem lt_of_readNat32 {n : Nat} {bs rest : List UInt8} (read : readNat32 bs = .ok (n, rest)) :
    n < UInt32.size :=
  lt_of_readVarint read

theorem lt_of_readNat64 {n : Nat} {bs rest : List UInt8} (read : readNat64 bs = .ok (n, rest)) :
    n < UInt64.size :=
  lt_of_readVarint read

/-- Folding again gives the number that was unfolded. -/
theorem zigzag_unzigzag (n : Nat) : zigzag (unzigzag n) = n := by
  simp only [zigzag, unzigzag]
  split <;> split <;> omega

theorem zigzag_ofInt_unzigzag {n : Nat} (small : n < UInt64.size) :
    zigzag (Int64.ofInt (unzigzag n)).toInt = n := by
  have low : -2 ^ 63 ≤ unzigzag n ∧ unzigzag n < 2 ^ 63 := by
    simp only [UInt64.size] at small
    simp only [unzigzag]
    split <;> omega
  rw [Int64.toInt_ofInt_of_le low.1 low.2, zigzag_unzigzag]

/-! ## Bytes -/

section
variable {bs rest : List UInt8}

theorem took_readBytes {count : Nat} {block : List UInt8}
    (read : readBytes count bs = .ok (block, rest)) :
    block.length = count ∧ Took (readBytes count) bs block rest block := by
  unfold readBytes at read
  split at read
  · cases read
  · rename_i enough
    cases read
    have length : (bs.take count).length = count :=
      List.length_take_of_le (Nat.le_of_not_lt enough)
    refine ⟨length, _, (List.take_append_drop count bs).symm, fun more => ?_, .refl _⟩
    have whole := readBytes_append (bs.take count) more
    rwa [length] at whole

theorem took_readByte {b : UInt8} (read : readByte bs = .ok (b, rest)) :
    Took readByte bs b rest [b] := by
  cases bs with
  | nil => cases read
  | cons c bs =>
    cases read
    exact ⟨[b], rfl, fun _ => rfl, .refl _⟩

/-- Bytes are those of the number they stand for. -/
theorem writeFixed_fixedValue (bs : List UInt8) :
    writeFixed bs.length (fixedValue bs) = bs ∧ fixedValue bs < Nat.pow 256 bs.length := by
  induction bs with
  | nil => exact ⟨rfl, Nat.one_pos⟩
  | cons b bs ih =>
    obtain ⟨others, small⟩ := ih
    have byte := b.toNat_lt
    have value : fixedValue (b :: bs) = b.toNat + 256 * fixedValue bs := rfl
    have low : (b.toNat + 256 * fixedValue bs) % 256 = b.toNat := by omega
    have high : (b.toNat + 256 * fixedValue bs) / 256 = fixedValue bs := by omega
    rw [value, List.length_cons, writeFixed, low, high, others, UInt8.ofNat_toNat, Nat.pow,
      Nat.mul_eq]
    exact ⟨rfl, by omega⟩

theorem took_readReal {x : Binary64} (read : readReal bs = .ok (x, rest)) :
    Took readReal bs x rest (writeReal x) := by
  obtain ⟨⟨block, behind⟩, bytes, whole⟩ := bind_eq_ok.1 read
  cases whole
  obtain ⟨length, took⟩ := took_readBytes bytes
  obtain ⟨same, small⟩ := writeFixed_fixedValue block
  rw [length] at same small
  have bits : (UInt64.ofNat (fixedValue block)).toNat = fixedValue block :=
    UInt64.toNat_ofNat_of_lt small
  rw [writeReal, bits, same]
  exact took.map fun bs => (⟨UInt64.ofNat (fixedValue bs)⟩ : Binary64)

theorem took_readTruth {b : Bool} (read : readTruth bs = .ok (b, rest)) :
    Took readTruth bs b rest (writeTruth b) := by
  cases bs with
  | nil => cases read
  | cons c bs =>
    simp only [readTruth, readByte, bind, Except.bind] at read
    split at read
    · rename_i zero
      cases read
      exact ⟨[c], rfl, fun _ => by rw [zero]; rfl, by rw [zero]; exact .refl _⟩
    split at read
    · rename_i one
      cases read
      exact ⟨[c], rfl, fun _ => by rw [one]; rfl, by rw [one]; exact .refl _⟩
    · cases read

/-- A length is written for as many bytes as it was read for. -/
theorem took_readBlock {block : List UInt8} (read : readBlock bs = .ok (block, rest)) :
    Took readBlock bs block rest (writeBlock block) := by
  obtain ⟨⟨count, mid⟩, counted, bytes⟩ := bind_eq_ok.1 read
  obtain ⟨length, took⟩ := took_readBytes bytes
  rw [writeBlock, length]
  exact (took_readVarint counted).bind took

theorem took_readText {text : String} (read : readText bs = .ok (text, rest)) :
    Took readText bs text rest (writeText text) := by
  obtain ⟨⟨block, behind⟩, bytes, whole⟩ := bind_eq_ok.1 read
  dsimp only at whole
  split at whole
  · rename_i t found
    cases whole
    rw [writeText, Text.bytes_of_ofBytes? found, ← List.append_nil (writeBlock block)]
    refine (took_readBlock bytes).bind ⟨[], rfl, fun more => ?_, .refl []⟩
    dsimp only
    rw [found]
    rfl
  · cases whole

/-! ## Sequences -/

variable {α : Type} {read : Reader α} {write : α → List UInt8} {xs : List α}

/-- So many values as were counted, by induction on their number. -/
theorem took_readMany
    (each : ∀ {bs x rest}, read bs = .ok (x, rest) → Took read bs x rest (write x)) {count : Nat}
    (values : readMany read count bs = .ok (xs, rest)) :
    xs.length = count ∧ Took (readMany read count) bs xs rest (xs.flatMap write) := by
  induction count generalizing bs xs with
  | zero =>
    cases values
    exact ⟨rfl, [], rfl, fun _ => rfl, .refl []⟩
  | succ count ih =>
    obtain ⟨⟨x, mid⟩, one, values⟩ := bind_eq_ok.1 values
    obtain ⟨⟨others, behind⟩, more, whole⟩ := bind_eq_ok.1 values
    cases whole
    obtain ⟨length, took⟩ := ih more
    exact ⟨congrArg (· + 1) length, (each one).bind (took.map (x :: ·))⟩

theorem took_readSequence
    (each : ∀ {bs x rest}, read bs = .ok (x, rest) → Took read bs x rest (write x))
    (values : readSequence read bs = .ok (xs, rest)) :
    Took (readSequence read) bs xs rest (writeSequence write xs) := by
  obtain ⟨⟨count, mid⟩, counted, many⟩ := bind_eq_ok.1 values
  obtain ⟨length, took⟩ := took_readMany each many
  rw [writeSequence, length]
  exact (took_readVarint counted).bind took

end

end Wire

open Wire

theorem LineRun.took_decode {bs rest : List UInt8} {r : LineRun}
    (read : decode bs = .ok (r, rest)) : Took decode bs r rest r.encode := by
  obtain ⟨⟨line, mid⟩, first, read⟩ := bind_eq_ok.1 read
  obtain ⟨⟨count, behind⟩, second, whole⟩ := bind_eq_ok.1 read
  cases whole
  have line_eq : (UInt32.ofNat line).toNat = line :=
    UInt32.toNat_ofNat_of_lt' (lt_of_readNat32 first)
  have count_eq : (UInt32.ofNat count).toNat = count :=
    UInt32.toNat_ofNat_of_lt' (lt_of_readNat32 second)
  rw [encode, line_eq, count_eq]
  exact (took_readVarint first).bind
    ((took_readVarint second).map fun count =>
      (⟨UInt32.ofNat line, UInt32.ofNat count⟩ : LineRun))

namespace Constant

/-- What stands behind the number of its kind is the payload of a constant of that kind. -/
theorem took_readKind {kind : Nat} {bs rest : List UInt8} {c : Constant}
    (read : readKind kind bs = .ok (c, rest)) :
    ∃ payload, c.write = writeVarint kind ++ payload ∧ Took (readKind kind) bs c rest payload := by
  unfold readKind at read
  split at read
  · obtain ⟨⟨b, behind⟩, truth, whole⟩ := bind_eq_ok.1 read
    cases whole
    exact ⟨_, rfl, (took_readTruth truth).map boolean⟩
  · obtain ⟨⟨x, behind⟩, byte, whole⟩ := bind_eq_ok.1 read
    cases whole
    exact ⟨_, rfl, (took_readByte byte).map character⟩
  · obtain ⟨⟨x, behind⟩, number, whole⟩ := bind_eq_ok.1 read
    cases whole
    exact ⟨_, rfl, (took_readReal number).map real⟩
  · obtain ⟨⟨n, behind⟩, number, whole⟩ := bind_eq_ok.1 read
    cases whole
    refine ⟨_, rfl, ?_⟩
    rw [zigzag_ofInt_unzigzag (lt_of_readNat64 number)]
    exact (took_readVarint number).map fun n => integer (Int64.ofInt (unzigzag n))
  · obtain ⟨⟨t, behind⟩, characters, whole⟩ := bind_eq_ok.1 read
    cases whole
    exact ⟨_, rfl, (took_readText characters).map text⟩
  · cases read

theorem took_read {bs rest : List UInt8} {c : Constant} (taken : read bs = .ok (c, rest)) :
    Took read bs c rest c.write := by
  obtain ⟨⟨kind, mid⟩, tag, payload⟩ := bind_eq_ok.1 taken
  obtain ⟨written, whole, took⟩ := took_readKind payload
  rw [whole]
  exact (took_readVarint tag).bind took

end Constant

namespace Image

theorem took_readFields {bs rest : List UInt8} {image : Image}
    (read : readFields bs = .ok (image, rest)) :
    Took readFields bs image rest image.writeFields := by
  obtain ⟨⟨code, mid⟩, first, read⟩ := bind_eq_ok.1 read
  obtain ⟨⟨lines, mid'⟩, second, read⟩ := bind_eq_ok.1 read
  obtain ⟨⟨constants, behind⟩, third, whole⟩ := bind_eq_ok.1 read
  cases whole
  rw [writeFields, List.append_assoc]
  exact (took_readBlock first).bind ((took_readSequence LineRun.took_decode second).bind
    ((took_readSequence Constant.took_read third).map fun constants =>
      (⟨code, lines, constants⟩ : Image)))

/-- Bytes in which there is an image have it at the front, whatever stands behind it. -/
theorem took_decode {bs : List UInt8} {image : Image} (decoded : decode bs = .ok image) :
    ∃ used rest, bs = used ++ rest ∧
      (∀ more, decodeFront (used ++ more) = .ok (image, more)) ∧ used ≠ [] ∧
      Shortest image.encode used := by
  cases bs with
  | nil => cases decoded
  | cons v bs =>
    rw [decode, decodeFront] at decoded
    split at decoded
    · rename_i same
      subst same
      cases read : readFields bs with
      | error e =>
        rw [read] at decoded
        cases decoded
      | ok taken =>
        obtain ⟨image', rest⟩ := taken
        rw [read] at decoded
        cases decoded
        obtain ⟨used, rfl, reads, short⟩ := took_readFields read
        refine ⟨version :: used, rest, rfl, fun more => ?_, List.cons_ne_nil _ _,
          (Shortest.refl [version]).append short⟩
        rw [List.cons_append, decodeFront, if_pos rfl, reads]
        rfl
    · cases decoded

/-- **Encoding is the shortest form of what decoding accepts**, and the only one of its length. Of
bytes that are decoded, the first `n` are those of the image: it is read from them whatever stands
behind, and all that stands behind is left. -/
theorem encode_shortest {bs : List UInt8} {image : Image} (decoded : decode bs = .ok image) :
    ∃ n, (∀ more, decodeFront (bs.take n ++ more) = .ok (image, more)) ∧
      decodeFront bs = .ok (image, bs.drop n) ∧ 1 ≤ n ∧ n ≤ bs.length ∧
      image.encode.length ≤ n ∧ (image.encode.length = n ↔ image.encode = bs.take n) := by
  obtain ⟨used, rest, rfl, reads, some, short⟩ := took_decode decoded
  refine ⟨used.length, ?_, ?_, List.length_pos_iff.2 some, ?_, short.le, ?_⟩
  · rw [List.take_left]
    exact reads
  · rw [List.drop_left]
    exact reads rest
  · rw [List.length_append]
    exact Nat.le_add_right _ _
  · rw [List.take_left]
    exact ⟨short.eq, congrArg List.length⟩

/-- An image of which each number has a byte more than it needs, with a byte behind it: a length, a
count, a line, the kind of a constant and a folded integer. -/
theorem encode_shortest_overlong :
    let bs : List UInt8 := [1, 0x81, 0, 21, 0x81, 0, 0x87, 0, 0x81, 0, 0x81, 0, 0x83, 0, 0x85, 0, 9]
    let image : Image := ⟨[21], [⟨7, 1⟩], [.integer (-3)]⟩
    decode bs = .ok image ∧ image.encode = [1, 1, 21, 1, 7, 1, 1, 3, 5] ∧
      ∃ n, decodeFront bs = .ok (image, bs.drop n) ∧ n ≤ bs.length ∧ image.encode.length ≤ n ∧
        (image.encode.length = n ↔ image.encode = bs.take n) := by
  intro bs image
  have decoded : decode bs = .ok image := by dsimp only [bs, image]; cbv
  obtain ⟨n, -, front, -, inside, short, same⟩ := encode_shortest decoded
  exact ⟨decoded, by decide +kernel, n, front, inside, short, same⟩

end Image

end Pseudocode
