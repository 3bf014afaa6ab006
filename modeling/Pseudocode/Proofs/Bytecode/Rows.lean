import Mathlib.Data.List.Chain
import Pseudocode.Bytecode.Listing
import Pseudocode.Proofs.Bytecode.Decoding
/-!
# The rows of a listing

A listing goes on behind a byte that is no operation, where disassembling gives up. Up to there both
read the same instructions. Behind it the listing may read operands as operations, until one is cut
off by the end of the code; that row takes all that is left.

* `Rows`: the ways from an offset to the end of the code, row by row;
* `rows_rowOffsetsFrom`: where every byte has a line, the listing goes such a way;
* `Rows.exists_row`: every byte is in a row;
* `Rows.of_disassembled`, `Rows.of_refused`: the rows beside the instructions that are disassembled;
* `listing_loses_nothing`: the listing of any code.
-/
namespace Pseudocode

/-- The offset that an error is about. -/
def DecodeError.offset : DecodeError → Nat
  | outOfRange offset | unknownOpcode offset _ | truncated offset _ | missingLine offset => offset

namespace Chunk

/-- The rows lead from an offset to the end of the code: over instructions, over bytes that are no
operations, and over an operand that is cut off, with which they end. -/
inductive Rows (c : Chunk) : Nat → List Nat → Prop where
  | nil : Rows c c.size []
  | instruction {offset : Nat} {i : Instruction} {os : List Nat} (here : c.decode offset = .ok i)
    (rest : Rows c (offset + i.width) os) : Rows c offset (offset :: os)
  | unknown {offset : Nat} {byte : UInt8} {os : List Nat} (inside : offset < c.size)
    (here : c.decode offset = .error (.unknownOpcode offset byte))
    (rest : Rows c (offset + 1) os) : Rows c offset (offset :: os)
  | truncated {offset : Nat} {op : Opcode} (inside : offset < c.size)
    (here : c.decode offset = .error (.truncated offset op)) : Rows c offset [offset]

variable {c : Chunk} {offset : Nat} {os : List Nat}

theorem nextRow_of_decode {i : Instruction} (here : c.decode offset = .ok i) :
    c.nextRow offset = offset + i.width := by
  rw [nextRow, here]

theorem nextRow_of_unknown {byte : UInt8}
    (here : c.decode offset = .error (.unknownOpcode offset byte)) :
    c.nextRow offset = offset + 1 := by
  rw [nextRow, here]

theorem nextRow_of_truncated {op : Opcode}
    (here : c.decode offset = .error (.truncated offset op)) : c.nextRow offset = c.size := by
  rw [nextRow, here]

theorem offset_of_decode {i : Instruction} (here : c.decode offset = .ok i) :
    i.offset = offset := by
  have decoded := c.decoded offset
  rw [here] at decoded
  cases decoded
  rfl

/-- Where every byte has a line, the listing goes from row to row up to the end of the code. -/
theorem rows_rowOffsetsFrom (covered : c.Covered) (offset : Nat) (within : offset ≤ c.size) :
    c.Rows offset (c.rowOffsetsFrom offset) := by
  induction offset using rowOffsetsFrom.induct c with
  | case1 offset inside ih =>
    rw [rowOffsetsFrom, dif_pos inside]
    have decoded := c.decoded offset
    generalize here : c.decode offset = result at decoded
    cases decoded with
    | outOfRange outside => omega
    | missingLine missing =>
      have := covered.lineAt?_eq_none_iff.1 missing
      omega
    | unknownOpcode =>
      rw [nextRow_of_unknown here] at ih ⊢
      exact .unknown inside here (ih inside)
    | truncated =>
      rw [nextRow_of_truncated here, rowOffsetsFrom, dif_neg (Nat.lt_irrefl _)]
      exact .truncated inside here
    | instruction =>
      rw [nextRow_of_decode here] at ih ⊢
      exact .instruction here (ih (decode_width here))
  | case2 offset outside =>
    rw [rowOffsetsFrom, dif_neg outside, Nat.le_antisymm within (Nat.le_of_not_lt outside)]
    exact .nil

namespace Rows

theorem head? (rows : c.Rows offset os) (inside : offset < c.size) : os.head? = some offset := by
  cases rows with
  | nil => exact absurd inside (Nat.lt_irrefl _)
  | _ => rfl

theorem eq_of_mem_head? (rows : c.Rows offset os) {o : Nat} (first : o ∈ os.head?) :
    o = offset := by
  cases rows with
  | nil => cases first
  | _ => exact (Option.mem_some.1 first).symm

/-- There are no more rows than bytes. -/
theorem length_le (rows : c.Rows offset os) : offset + os.length ≤ c.size := by
  induction rows with
  | nil => exact Nat.le_refl _
  | instruction here rest ih =>
    rw [Instruction.width] at ih
    rw [List.length_cons]
    omega
  | unknown inside here rest ih =>
    rw [List.length_cons]
    omega
  | truncated inside here => exact inside

/-- A row starts behind the instruction or the byte of the row above it. -/
theorem chain (rows : c.Rows offset os) :
    os.IsChain fun o next =>
      (∃ i, c.decode o = .ok i ∧ next = o + i.width) ∨
        ∃ byte, c.decode o = .error (.unknownOpcode o byte) ∧ next = o + 1 := by
  induction rows with
  | nil => exact .nil
  | instruction here rest ih =>
    exact List.isChain_cons.2 ⟨fun o first => .inl ⟨_, here, rest.eq_of_mem_head? first⟩, ih⟩
  | unknown inside here rest ih =>
    exact List.isChain_cons.2 ⟨fun o first => .inr ⟨_, here, rest.eq_of_mem_head? first⟩, ih⟩
  | truncated inside here => exact .singleton _

/-- The rows are in the order of their offsets. -/
theorem increasing (rows : c.Rows offset os) : os.Pairwise (· < ·) := by
  refine List.isChain_iff_pairwise.1 (rows.chain.imp fun o next => ?_)
  rintro (⟨i, -, rfl⟩ | ⟨byte, -, rfl⟩)
  · rw [Instruction.width]
    omega
  · exact Nat.lt_succ_self o

/-- Every byte is in a row. -/
theorem exists_row (rows : c.Rows offset os) {place : Nat} (behind : offset ≤ place)
    (inside : place < c.size) : ∃ o ∈ os, o ≤ place ∧ place < c.nextRow o := by
  induction rows with
  | nil => omega
  | @instruction offset i os here rest ih =>
    by_cases later : offset + i.width ≤ place
    · obtain ⟨o, there, found⟩ := ih later
      exact ⟨o, List.mem_cons_of_mem _ there, found⟩
    · exact ⟨offset, List.mem_cons_self, behind, nextRow_of_decode here ▸ Nat.lt_of_not_le later⟩
  | @unknown offset byte os _ here rest ih =>
    by_cases later : offset + 1 ≤ place
    · obtain ⟨o, there, found⟩ := ih later
      exact ⟨o, List.mem_cons_of_mem _ there, found⟩
    · exact ⟨offset, List.mem_cons_self, behind, by
        rw [nextRow_of_unknown here]
        exact Nat.lt_of_not_le later⟩
  | @truncated offset op _ here =>
    exact ⟨offset, List.mem_cons_self, behind, by
      rw [nextRow_of_truncated here]
      exact inside⟩

/-- An operand that is cut off has one row, and that is the last. -/
theorem getLast?_of_truncated (rows : c.Rows offset os) {o : Nat} {op : Opcode} (there : o ∈ os)
    (cut : c.decode o = .error (.truncated o op)) : os.getLast? = some o := by
  induction rows with
  | nil => cases there
  | instruction here rest ih =>
    rcases List.mem_cons.1 there with rfl | there
    · rw [here] at cut
      cases cut
    · rw [List.getLast?_cons_of_ne_nil (List.ne_nil_of_mem there), ih there]
  | unknown inside here rest ih =>
    rcases List.mem_cons.1 there with rfl | there
    · rw [here] at cut
      cases cut
    · rw [List.getLast?_cons_of_ne_nil (List.ne_nil_of_mem there), ih there]
  | truncated inside here => rw [List.mem_singleton.1 there, List.getLast?_singleton]

end Rows

/-! ## Beside the instructions -/

theorem disassembleFrom_of_refused {e : DecodeError} (inside : offset < c.size)
    (here : c.decode offset = .error e) : c.disassembleFrom offset = .error e := by
  rw [disassembleFrom, if_pos inside]
  split <;> rename_i h <;> rw [here] at h <;> cases h
  rfl

theorem disassembleFrom_size (c : Chunk) : c.disassembleFrom c.size = .ok [] := by
  rw [disassembleFrom, if_neg (Nat.lt_irrefl _)]

namespace Rows

/-- The rows of code that is disassembled are its instructions. -/
theorem of_disassembled (rows : c.Rows offset os) {is : List Instruction}
    (disassembled : c.disassembleFrom offset = .ok is) :
    c.Lists offset is c.size ∧ os = is.map (·.offset) := by
  induction rows generalizing is with
  | nil =>
    rw [disassembleFrom_size] at disassembled
    cases disassembled
    exact ⟨.nil _, rfl⟩
  | instruction here rest ih =>
    rw [disassembleFrom_of_decode here] at disassembled
    cases others : c.disassembleFrom _ with
    | error e =>
      rw [others] at disassembled
      cases disassembled
    | ok is =>
      rw [others] at disassembled
      cases disassembled
      obtain ⟨lists, same⟩ := ih others
      exact ⟨.cons here lists, by rw [List.map_cons, offset_of_decode here, same]⟩
  | unknown inside here | truncated inside here =>
    rw [disassembleFrom_of_refused inside here] at disassembled
    cases disassembled

/-- The rows of code that is refused are the instructions in front of the error, a row where the
error is, and others. -/
theorem of_refused (rows : c.Rows offset os) {e : DecodeError}
    (refused : c.disassembleFrom offset = .error e) :
    ∃ is after, c.Lists offset is e.offset ∧ c.decode e.offset = .error e ∧
      os = is.map (·.offset) ++ e.offset :: after := by
  induction rows with
  | nil =>
    rw [disassembleFrom_size] at refused
    cases refused
  | instruction here rest ih =>
    rw [disassembleFrom_of_decode here] at refused
    cases others : c.disassembleFrom _ with
    | ok is =>
      rw [others] at refused
      cases refused
    | error e =>
      rw [others] at refused
      cases refused
      obtain ⟨is, after, lists, error, split⟩ := ih others
      refine ⟨_ :: is, after, .cons here lists, error, ?_⟩
      rw [List.map_cons, offset_of_decode here, split, List.cons_append]
  | @unknown offset byte os inside here =>
    rw [disassembleFrom_of_refused inside here] at refused
    cases refused
    exact ⟨[], os, .nil _, here, rfl⟩
  | truncated inside here =>
    rw [disassembleFrom_of_refused inside here] at refused
    cases refused
    exact ⟨[], [], .nil _, here, rfl⟩

end Rows

/-- **A listing leaves nothing out.** Whatever the code, if every byte has a line: there are no more
rows than bytes, the first starts at the first byte, each of the others starts behind the
instruction of the row above it, or behind the byte if that is no operation, and every byte is in a
row. An operand that is cut off has one row, the last. Code that is disassembled has a row for each
instruction and no others; code that is refused has a row for each instruction that was read, and
then one where the error is. -/
theorem listing_loses_nothing {c : Chunk} (covered : c.Covered) (heap : Heap) (title : String) :
    c.listing heap title =
        "== " ++ title ++ " ==\n" ++ String.join (c.rowOffsets.map (c.row heap · ++ "\n")) ∧
      c.rowOffsets.length ≤ c.size ∧
      (0 < c.size → c.rowOffsets.head? = some 0) ∧
      c.rowOffsets.Pairwise (· < ·) ∧
      (c.rowOffsets.IsChain fun o next =>
        (∃ i, c.decode o = .ok i ∧ next = o + i.width) ∨
          ∃ byte, c.decode o = .error (.unknownOpcode o byte) ∧ next = o + 1) ∧
      (∀ place < c.size, ∃ o ∈ c.rowOffsets, o ≤ place ∧ place < c.nextRow o) ∧
      (∀ o ∈ c.rowOffsets, ∀ op, c.decode o = .error (.truncated o op) →
        c.rowOffsets.getLast? = some o) ∧
      (∀ is, c.disassemble = .ok is →
        c.Lists 0 is c.size ∧ c.rowOffsets = is.map (·.offset)) ∧
      ∀ e, c.disassemble = .error e → ∃ is after,
        c.Lists 0 is e.offset ∧ c.decode e.offset = .error e ∧
          c.rowOffsets = is.map (·.offset) ++ e.offset :: after := by
  have rows : c.Rows 0 c.rowOffsets := rows_rowOffsetsFrom covered 0 (Nat.zero_le _)
  have few := rows.length_le
  rw [Nat.zero_add] at few
  exact ⟨rfl, few, rows.head?, rows.increasing, rows.chain,
    fun place inside => rows.exists_row (Nat.zero_le _) inside,
    fun o there op cut => rows.getLast?_of_truncated there cut,
    fun is disassembled => rows.of_disassembled disassembled,
    fun e refused => rows.of_refused refused⟩

/-- A byte that is no operation, the load of a constant behind it, and one that is cut off. -/
theorem listing_loses_nothing_resumed :
    let c : Chunk := ⟨#[99, 0, 7, 1, 5, 5], #[], #[⟨1, 4⟩, ⟨2, 2⟩]⟩
    c.Covered ∧ c.disassemble = .error (.unknownOpcode 0 99) ∧ c.rowOffsets = [0, 1, 3] ∧
      c.decode 1 = .ok ⟨1, .constant, some 7, 1⟩ ∧
      c.decode 3 = .error (.truncated 3 .constantLong) ∧ c.rowOffsets.getLast? = some 3 := by
  intro c
  have covered : c.Covered := rfl
  have rows : c.rowOffsets = [0, 1, 3] := by cbv
  have cut : c.decode 3 = .error (.truncated 3 .constantLong) := by cbv
  obtain ⟨-, -, -, -, -, -, last, -, -⟩ := listing_loses_nothing covered .new "code"
  exact ⟨covered, by cbv, rows, by cbv, cut, last 3 (by rw [rows]; decide) _ cut⟩

end Chunk

end Pseudocode
