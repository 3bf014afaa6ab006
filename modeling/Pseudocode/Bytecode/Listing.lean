import Pseudocode.Bytecode.Instruction
import Pseudocode.Text.Column
/-!
# The listing of a chunk

One row per instruction: its offset, its line and what it does. The line is a bar where the byte in
front of the instruction has the same line. A byte that is no operation has a row of its own, and
any other error takes up the rest of the code.

* `lt_nextRow`: the rows move forward.
-/
namespace Pseudocode.Chunk

/-- Where the row behind the row at `offset` starts. -/
def nextRow (c : Chunk) (offset : Nat) : Nat :=
  match c.decode offset with
  | .ok i => offset + i.width
  | .error (.unknownOpcode _ _) => offset + 1
  | .error _ => c.size

/-- The line column of the row at `offset`. -/
def lineCell (c : Chunk) (offset : Nat) : String :=
  let line := c.lineAt? offset
  if 0 < offset ∧ line = c.lineAt? (offset - 1) then "   | "
  else
    match line with
    | some line => Text.alignRight ' ' 4 (toString line) ++ " "
    | none => "   ? "

/-- What a row says about a constant of the pool. -/
def constantText (c : Chunk) (heap : Heap) (index : Nat) : String :=
  ((c.constants[index]?).map (Value.listed heap)).getD "<bad constant>"

/-- What the row at `offset` says behind its line. -/
def rowText (c : Chunk) (heap : Heap) (offset : Nat) : String :=
  match c.decode offset with
  | .ok i =>
    match i.operand with
    | some index =>
      Text.alignLeft 16 i.opcode.name ++ " " ++ Text.alignRight ' ' 4 (toString index) ++ " '" ++
        c.constantText heap index ++ "'"
    | none => i.opcode.name
  | .error (.unknownOpcode _ byte) => "Unknown opcode " ++ toString byte
  | .error e => e.message

/-- The row at an offset (`disassemble_instruction`). -/
def row (c : Chunk) (heap : Heap) (offset : Nat) : String :=
  Text.alignRight '0' 4 (toString offset) ++ " " ++ c.lineCell offset ++ c.rowText heap offset

theorem lt_nextRow (c : Chunk) (offset : Nat) (h : offset < c.size) :
    offset < c.nextRow offset := by
  unfold nextRow
  split
  · simp only [Instruction.width]
    omega
  · omega
  · exact h

/-- Where the rows from `offset` on start. -/
def rowOffsetsFrom (c : Chunk) (offset : Nat) : List Nat :=
  if _h : offset < c.size then offset :: c.rowOffsetsFrom (c.nextRow offset) else []
termination_by c.size - offset
decreasing_by
  have := c.lt_nextRow offset _h
  omega

def rowOffsets (c : Chunk) : List Nat := c.rowOffsetsFrom 0

/-- The title and the rows (`disassemble_to_string`). -/
def listing (c : Chunk) (heap : Heap) (title : String) : String :=
  "== " ++ title ++ " ==\n" ++ String.join (c.rowOffsets.map fun o => c.row heap o ++ "\n")

end Pseudocode.Chunk
