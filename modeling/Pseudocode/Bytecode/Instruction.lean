import Pseudocode.Bytecode.Chunk
/-!
# Instructions

The instructions of a chunk, decoded from its bytes. Of several things that may be wrong with the
bytes at an offset, the first of these is reported: there are none, the operation is unknown, the
operand is cut off, the line is not recorded.

* `decode_width`: an instruction that is decoded ends inside the code.
-/
namespace Pseudocode

structure Instruction where
  offset : Nat
  opcode : Opcode
  operand : Option Nat
  line : UInt32
  deriving DecidableEq, Repr

/-- Number of bytes of the instruction (`Instruction::width`). -/
def Instruction.width (i : Instruction) : Nat := 1 + i.opcode.operandSize

/-- Why there is no instruction at an offset. -/
inductive DecodeError where
  | outOfRange (offset : Nat)
  | unknownOpcode (offset : Nat) (byte : UInt8)
  | truncated (offset : Nat) (opcode : Opcode)
  | missingLine (offset : Nat)
  deriving DecidableEq, Repr

def DecodeError.message : DecodeError → String
  | .outOfRange offset => "offset " ++ toString offset ++ " is past the end of the code"
  | .unknownOpcode offset byte =>
    "unknown opcode " ++ toString byte ++ " at offset " ++ toString offset
  | .truncated offset opcode =>
    "truncated operand for " ++ opcode.name ++ " at offset " ++ toString offset
  | .missingLine offset => "no line recorded for offset " ++ toString offset

/-- The number that operand bytes stand for, the lowest first; no bytes are no operand
(`read_long_index`). -/
def operandOfBytes : List UInt8 → Option Nat
  | [] => none
  | bs => some (bs.foldr (fun b n => b.toNat + 256 * n) 0)

namespace Chunk

/-- The instruction at an offset (`decode_at`). -/
def decode (c : Chunk) (offset : Nat) : Except DecodeError Instruction :=
  match c.code[offset]? with
  | none => .error (.outOfRange offset)
  | some byte =>
    match Opcode.ofByte? byte with
    | none => .error (.unknownOpcode offset byte)
    | some opcode =>
      let next := offset + 1 + opcode.operandSize
      if c.size < next then .error (.truncated offset opcode)
      else
        match c.lineAt? offset with
        | none => .error (.missingLine offset)
        | some line =>
          .ok ⟨offset, opcode, operandOfBytes (c.code.extract (offset + 1) next).toList, line⟩

/-- An instruction that is decoded ends inside the code. -/
theorem decode_width {c : Chunk} {offset : Nat} {i : Instruction} (h : c.decode offset = .ok i) :
    offset + i.width ≤ c.size := by
  unfold decode at h
  split at h
  · cases h
  split at h
  · cases h
  dsimp only at h
  split at h
  · cases h
  split at h
  · cases h
  · cases h
    simp only [Instruction.width]
    omega

/-- The instructions from `offset` on. -/
def disassembleFrom (c : Chunk) (offset : Nat) : Except DecodeError (List Instruction) :=
  if offset < c.size then
    match _h : c.decode offset with
    | .error e => .error e
    | .ok i => (c.disassembleFrom (offset + i.width)).map (i :: ·)
  else .ok []
termination_by c.size - offset
decreasing_by
  have := decode_width _h
  simp only [Instruction.width] at *
  omega

/-- All instructions of the code (`disassemble`). -/
def disassemble (c : Chunk) : Except DecodeError (List Instruction) := c.disassembleFrom 0

end Chunk

end Pseudocode
