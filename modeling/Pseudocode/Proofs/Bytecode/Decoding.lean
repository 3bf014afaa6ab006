import Pseudocode.Bytecode.Instruction
import Pseudocode.Proofs.Bytecode.Emission
/-!
# What is decoded

An instruction is decoded from the byte of its operation, the bytes of its operand, which must be
there, and the line of its first byte. The operand is the index that the machine reads for itself
when it loads a constant.

* `operandOfBytes_extract`: the two ways to read an operand agree;
* `decode_of_found`: what is decoded where the bytes and the line are there;
* `decoded`: everything that decoding may come to;
* `holds_write`, `holds_load`: what was written is there, whatever was written behind it;
* `Lays.lists`: code that was written is decoded;
* `Lists.disassembleFrom`: code that is decoded up to its end is disassembled.
-/
namespace Pseudocode.Chunk

/-- The operand of an operation at `offset`: the index that a load of a constant carries. -/
def operandAt (c : Chunk) (offset : Nat) (op : Opcode) : Option Nat :=
  if op.operandSize = 0 then none else c.loadIndex? offset op

theorem extract_toList_one {bytes : Array UInt8} {i : Nat} (inside : i < bytes.size) :
    (bytes.extract i (i + 1)).toList = [bytes[i]] := by
  rw [Array.toList_extract, List.extract_eq_take_drop, Nat.add_sub_cancel_left,
    List.drop_eq_getElem_cons (by simpa using inside)]
  simp

theorem extract_toList_three {bytes : Array UInt8} {i : Nat} (inside : i + 3 < bytes.size) :
    (bytes.extract (i + 1) (i + 1 + 3)).toList = [bytes[i + 1], bytes[i + 2], bytes[i + 3]] := by
  rw [Array.toList_extract, List.extract_eq_take_drop, Nat.add_sub_cancel_left,
    List.drop_eq_getElem_cons (by simp; omega), List.drop_eq_getElem_cons (by simp; omega),
    List.drop_eq_getElem_cons (by simpa using inside)]
  simp

/-- The operand bytes of an instruction stand for the index that the machine reads. -/
theorem operandOfBytes_extract {c : Chunk} {offset : Nat} {op : Opcode}
    (inside : offset + op.operandSize < c.size) :
    operandOfBytes (c.code.extract (offset + 1) (offset + 1 + op.operandSize)).toList =
      c.operandAt offset op := by
  unfold operandAt
  cases op with
  | constant =>
    have there : offset + 1 < c.code.size := inside
    rw [Opcode.operandSize, extract_toList_one there, if_neg (by decide), loadIndex?,
      Array.getElem?_eq_getElem there]
    simp [operandOfBytes]
  | constantLong =>
    have there : offset + 3 < c.code.size := inside
    rw [Opcode.operandSize, extract_toList_three there, if_neg (by decide), loadIndex?,
      Array.getElem?_eq_getElem (by omega), Array.getElem?_eq_getElem (by omega),
      Array.getElem?_eq_getElem there]
    · simp only [operandOfBytes, List.foldr, Option.bind_eq_bind, Option.bind_some, Option.pure_def,
        Option.some.injEq]
      omega
    · exact fun h => by cases h
  | _ => simp [Opcode.operandSize, operandOfBytes]

/-- What is decoded where the bytes of an instruction and its line are there. -/
theorem decode_of_found {c : Chunk} {offset : Nat} {op : Opcode} {line : UInt32}
    (found : c.code[offset]? = some op.toByte) (inside : offset + op.operandSize < c.size)
    (lined : c.lineAt? offset = some line) :
    c.decode offset = .ok ⟨offset, op, c.operandAt offset op, line⟩ := by
  rw [decode, found]
  simp only [Opcode.ofByte?_toByte, lined]
  rw [if_neg (by omega), operandOfBytes_extract inside]

/-- What decoding may come to. -/
inductive Decoded (c : Chunk) (offset : Nat) : Except DecodeError Instruction → Prop where
  | outOfRange (outside : c.size ≤ offset) : Decoded c offset (.error (.outOfRange offset))
  | unknownOpcode {byte : UInt8} (found : c.code[offset]? = some byte)
    (unknown : Opcode.ofByte? byte = none) :
    Decoded c offset (.error (.unknownOpcode offset byte))
  | truncated {op : Opcode} (found : c.code[offset]? = some op.toByte)
    (short : c.size ≤ offset + op.operandSize) : Decoded c offset (.error (.truncated offset op))
  | missingLine (missing : c.lineAt? offset = none) :
    Decoded c offset (.error (.missingLine offset))
  | instruction {op : Opcode} {line : UInt32} (found : c.code[offset]? = some op.toByte)
    (inside : offset + op.operandSize < c.size) (lined : c.lineAt? offset = some line) :
    Decoded c offset (.ok ⟨offset, op, c.operandAt offset op, line⟩)

theorem decoded (c : Chunk) (offset : Nat) : c.Decoded offset (c.decode offset) := by
  cases found : c.code[offset]? with
  | none =>
    rw [decode, found]
    exact .outOfRange (Array.getElem?_eq_none_iff.1 found)
  | some byte =>
    cases known : Opcode.ofByte? byte with
    | none =>
      rw [decode, found]
      simp only [known]
      exact .unknownOpcode found known
    | some op =>
      rw [← Opcode.toByte_of_ofByte? known] at found
      by_cases inside : offset + op.operandSize < c.size
      · cases lined : c.lineAt? offset with
        | none =>
          rw [decode, found]
          simp only [Opcode.ofByte?_toByte, lined]
          rw [if_neg (by omega)]
          exact .missingLine lined
        | some line =>
          rw [decode_of_found found inside lined]
          exact .instruction found inside lined
      · rw [decode, found]
        simp only [Opcode.ofByte?_toByte]
        rw [if_pos (by omega)]
        exact .truncated found (by omega)

/-! ## Code that was written -/

/-- The bytes of an instruction are in the code at its offset, and they have its line, if the bytes
of the code are few enough to be counted in one run. -/
structure Holds (c : Chunk) (i : Instruction) : Prop where
  code : c.code[i.offset]? = some i.opcode.toByte
  inside : i.offset + i.opcode.operandSize < c.size
  operand : c.operandAt i.offset i.opcode = i.operand
  line : c.size < 2 ^ 32 → c.lineAt? i.offset = some i.line

theorem Holds.decode {c : Chunk} {i : Instruction} (holds : c.Holds i) (few : c.size < 2 ^ 32) :
    c.decode i.offset = .ok i := by
  rw [decode_of_found holds.code holds.inside (holds.line few), holds.operand]

/-- An operation without an operand. -/
theorem holds_write {c d : Chunk} {op : Opcode} {line : UInt32} (bare : op.operandSize = 0)
    (lined : c.Lined) (inside : (c.write op.toByte line).Grows d) :
    d.Holds ⟨c.size, op, none, line⟩ := by
  have found := getElem?_of_write inside
  have there : c.size < d.size := (Array.getElem?_eq_some_iff.1 found).1
  exact ⟨found, by simpa [bare] using there, if_pos bare, lineAt?_of_write lined inside⟩

/-- The load of a constant. -/
theorem holds_load {c d : Chunk} {v : Value} {line : UInt32} (lined : c.Lined)
    (small : c.constants.size < maxConstants)
    (inside : ((c.withConstant v).writeAll (loadBytes c.constants.size) line).Grows d) :
    d.Holds ⟨c.size, loadOpcode c.constants.size, some c.constants.size, line⟩ := by
  obtain ⟨found, line, carried, -⟩ := loadsNext lined small inside
  have there : c.size + (loadOpcode c.constants.size).operandSize < d.size := by
    have end_le := inside.size_le
    rw [size_load] at end_le
    omega
  have long : (loadOpcode c.constants.size).operandSize ≠ 0 := by
    unfold loadOpcode
    split <;> decide
  exact ⟨found, there, (if_neg long).trans carried, line⟩

/-- The instructions are in the code one behind the other, from an offset up to another. -/
inductive Lays (c : Chunk) : Nat → List Instruction → Nat → Prop where
  | nil (offset : Nat) : Lays c offset [] offset
  | cons {i : Instruction} {is : List Instruction} {last : Nat} (here : c.Holds i)
    (rest : Lays c (i.offset + i.width) is last) : Lays c i.offset (i :: is) last

/-! ## Code that is decoded -/

/-- The instructions are decoded one behind the other, from an offset up to another. -/
inductive Lists (c : Chunk) : Nat → List Instruction → Nat → Prop where
  | nil (offset : Nat) : Lists c offset [] offset
  | cons {i : Instruction} {is : List Instruction} {offset last : Nat}
    (here : c.decode offset = .ok i) (rest : Lists c (offset + i.width) is last) :
    Lists c offset (i :: is) last

theorem disassembleFrom_of_decode {c : Chunk} {offset : Nat} {i : Instruction}
    (h : c.decode offset = .ok i) :
    c.disassembleFrom offset = (c.disassembleFrom (offset + i.width)).map (i :: ·) := by
  have inside : offset < c.size := by
    have := decode_width h
    simp only [Instruction.width] at this
    omega
  rw [disassembleFrom, if_pos inside]
  split <;> rename_i h' <;> rw [h] at h' <;> cases h'
  rfl

/-- Instructions end where their widths say. -/
theorem Lays.last_eq {c : Chunk} {offset last : Nat} {is : List Instruction}
    (lays : c.Lays offset is last) : last = is.foldl (fun o i => o + i.width) offset := by
  induction lays with
  | nil offset => rfl
  | cons here _ ih => exact ih

/-- What is in the code is decoded, if its bytes are few enough to be counted. -/
theorem Lays.lists {c : Chunk} {offset last : Nat} {is : List Instruction}
    (lays : c.Lays offset is last) (few : c.size < 2 ^ 32) : c.Lists offset is last := by
  induction lays with
  | nil offset => exact .nil offset
  | cons here _ ih => exact .cons (here.decode few) ih

/-- Code that is decoded up to its end is disassembled. -/
theorem Lists.disassembleFrom {c : Chunk} {offset last : Nat} {is : List Instruction}
    (lists : c.Lists offset is last) (whole : last = c.size) :
    c.disassembleFrom offset = .ok is := by
  induction lists with
  | nil offset =>
    rw [Chunk.disassembleFrom, if_neg (by omega)]
  | cons here rest ih =>
    rw [disassembleFrom_of_decode here, ih whole]
    rfl

end Pseudocode.Chunk
