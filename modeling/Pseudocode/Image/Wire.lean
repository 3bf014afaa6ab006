import Pseudocode.Text.Bytes
import Pseudocode.Number.Binary64
/-!
# The wire format

How the fields of an image are written as bytes. Numbers are variable-length: seven bits a byte, the
lowest first, and the high bit set on every byte but the last. A signed number is folded onto the
natural numbers first, reals are eight bytes, lowest first, and what has a length is written behind
it.

Reading gives a value and the bytes behind it. A number may be written with more bytes than it
needs, up to the number of bytes that its width needs at most.

* `readVarint_writeVarint`: a number that is written is read back;
* `unzigzag_zigzag`: folding loses nothing.
-/
namespace Pseudocode.Wire

/-- Why bytes are not what they should be. -/
inductive WireError where
  | endOfBytes
  /-- A number has too many bytes, or too many bits in its last possible byte. -/
  | badNumber
  | badTruth
  | badText
  | badTag
  deriving DecidableEq, Repr

def WireError.message : WireError → String
  | endOfBytes => "Hit the end of buffer, expected more data"
  | badNumber =>
    "Found a varint that didn't terminate. Is the usize too big for this platform?"
  | badTruth => "Found a bool that wasn't 0 or 1"
  | badText => "Tried to parse invalid utf-8"
  | badTag => "Serde Deserialization Error"

/-- A reader of a value in front of other bytes. -/
abbrev Reader (α : Type) := List UInt8 → Except WireError (α × List UInt8)

/-! ## Numbers -/

/-- A number, seven bits a byte. -/
def writeVarint (n : Nat) : List UInt8 :=
  if n < 128 then [UInt8.ofNat n]
  else UInt8.ofNat (n % 128 + 128) :: writeVarint (n / 128)

/-- A number of so many bytes at most, the last of which may not be above `top`. -/
def readVarint (top : Nat) : Nat → Reader Nat
  | 0, _ => .error .badNumber
  | _ + 1, [] => .error .endOfBytes
  | left + 1, b :: bs =>
    if b.toNat < 128 then
      if left = 0 ∧ top < b.toNat then .error .badNumber else .ok (b.toNat, bs)
    else do
      let (high, rest) ← readVarint top left bs
      return (b.toNat - 128 + 128 * high, rest)

/-- A number of 32 bits: five bytes, the last of which has four bits. -/
def readNat32 : Reader Nat := readVarint 15 5

/-- A number of 64 bits: ten bytes, the last of which has one bit. -/
def readNat64 : Reader Nat := readVarint 1 10

/-- A signed number as a natural one: the sign becomes the lowest bit. -/
def zigzag (n : Int) : Nat := if n < 0 then 2 * n.natAbs - 1 else 2 * n.natAbs

/-- The signed number that was folded to a natural one. -/
def unzigzag (n : Nat) : Int := if n % 2 = 0 then (n / 2 : Nat) else -((n + 1) / 2 : Nat)

/-! ## Bytes -/

/-- So many bytes as they are. -/
def readBytes (count : Nat) : Reader (List UInt8) := fun bs =>
  if bs.length < count then .error .endOfBytes else .ok (bs.take count, bs.drop count)

def readByte : Reader UInt8
  | [] => .error .endOfBytes
  | b :: bs => .ok (b, bs)

/-- The lowest bytes of a number, the lowest first. -/
def writeFixed : Nat → Nat → List UInt8
  | 0, _ => []
  | count + 1, n => UInt8.ofNat (n % 256) :: writeFixed count (n / 256)

/-- The number that bytes stand for, the lowest first. -/
def fixedValue (bs : List UInt8) : Nat := bs.foldr (fun b n => b.toNat + 256 * n) 0

def writeReal (x : Binary64) : List UInt8 := writeFixed 8 x.bits.toNat

def readReal : Reader Binary64 := fun bs => do
  let (bs, rest) ← readBytes 8 bs
  return (⟨UInt64.ofNat (fixedValue bs)⟩, rest)

def writeTruth (b : Bool) : List UInt8 := [if b then 1 else 0]

def readTruth : Reader Bool := fun bs => do
  let (b, rest) ← readByte bs
  if b = 0 then return (false, rest)
  else if b = 1 then return (true, rest)
  else throw .badTruth

/-- Bytes behind their number. -/
def writeBlock (bs : List UInt8) : List UInt8 := writeVarint bs.length ++ bs

/-- Bytes behind their number. -/
def readBlock : Reader (List UInt8) := fun bs => do
  let (count, bs) ← readNat64 bs
  readBytes count bs

/-- A text as UTF-8 behind the number of its bytes. -/
def writeText (text : String) : List UInt8 := writeBlock (Text.bytes text)

/-- A text as UTF-8 behind the number of its bytes. -/
def readText : Reader String := fun bs => do
  let (block, rest) ← readBlock bs
  match Text.ofBytes? block with
  | some text => return (text, rest)
  | none => throw .badText

/-! ## Sequences -/

/-- Values behind their number. -/
def writeSequence {α : Type} (write : α → List UInt8) (xs : List α) : List UInt8 :=
  writeVarint xs.length ++ xs.flatMap write

def readMany {α : Type} (read : Reader α) : Nat → Reader (List α)
  | 0, bs => .ok ([], bs)
  | count + 1, bs => do
    let (x, bs) ← read bs
    let (xs, bs) ← readMany read count bs
    return (x :: xs, bs)

/-- Values behind their number. -/
def readSequence {α : Type} (read : Reader α) : Reader (List α) := fun bs => do
  let (count, bs) ← readNat64 bs
  readMany read count bs

/-! ## Laws -/

/-- A number that is written is read back, if the bytes it may have suffice for it. -/
theorem readVarint_writeVarint (top left n : Nat) (rest : List UInt8) (h : top < 128)
    (fits : n < (top + 1) * Nat.pow 128 left) :
    readVarint top (left + 1) (writeVarint n ++ rest) = .ok (n, rest) := by
  induction left generalizing n with
  | zero =>
    rw [Nat.pow, Nat.mul_one] at fits
    have small : n < 128 := by omega
    have byte : (UInt8.ofNat n).toNat = n := by simp; omega
    rw [writeVarint, if_pos small]
    simp [readVarint, byte, small]
    omega
  | succ left ih =>
    rw [writeVarint]
    split
    · rename_i small
      have byte : (UInt8.ofNat n).toNat = n := by simp; omega
      simp [readVarint, byte, small]
    · rename_i large
      have byte : (UInt8.ofNat (n % 128 + 128)).toNat = n % 128 + 128 := by simp; omega
      have fits' : n / 128 < (top + 1) * Nat.pow 128 left := by
        rw [Nat.pow, Nat.mul_eq, ← Nat.mul_assoc] at fits
        exact Nat.div_lt_of_lt_mul (by rwa [Nat.mul_comm] at fits)
      rw [List.cons_append, readVarint, byte, if_neg (by omega), ih _ fits']
      simp only [bind, Except.bind, pure, Except.pure, Except.ok.injEq, Prod.mk.injEq, and_true]
      omega

/-- Folding loses nothing. -/
theorem unzigzag_zigzag (n : Int) : unzigzag (zigzag n) = n := by
  simp only [zigzag, unzigzag]
  split <;> split <;> omega

end Pseudocode.Wire
