import Pseudocode.Proofs.Bytecode.LineTable
import Pseudocode.Proofs.Bytecode.Rows
/-!
# The line column of a listing

A row has a bar for a line where the byte in front of its instruction is of the same line. That byte
is the last one of the instruction above, and it may be of another line than the first one, which is
the line of that row: the runs of a line table may end inside an instruction. So a bar stands for
the line of the row above just if the instruction above ends on the line it starts on, or else on a
line other than that of the row.

* `lineCell_behind`: the cell of a row, by the last byte of the instruction above;
* `readLine_bar`, `readLine_number`: what is read back from a row;
* `readLines_rows`: when the lines of all instructions are read back, by induction on the rows;
* `line_column_of_parts`: the line column of a chunk that was put together from its parts;
* `line_column_ambiguous`: one listing for chunks of different lines.
-/
namespace Pseudocode.Chunk

/-- The cell of a row that shows its line. -/
def numberCell (line : UInt32) : String := Text.alignRight ' ' 4 (toString line) ++ " "

/-- The line of the last byte of an instruction. -/
def endLine (c : Chunk) (i : Instruction) : Option UInt32 := c.lineAt? (i.offset + i.width - 1)

/-! ## Cells -/

section
variable {c : Chunk} {offset last : Nat} {i above : Instruction} {is : List Instruction}

theorem lineAt?_of_decode (here : c.decode offset = .ok i) : c.lineAt? offset = some i.line := by
  have decoded := c.decoded offset
  rw [here] at decoded
  cases decoded with
  | instruction _ _ lined => exact lined

theorem lineCell_zero (here : c.decode 0 = .ok i) : c.lineCell 0 = numberCell i.line := by
  rw [lineCell, lineAt?_of_decode here]
  rfl

/-- A row behind another has a bar just if the instruction above ends on its line. -/
theorem lineCell_behind (here : c.decode i.offset = .ok i)
    (behind : i.offset = above.offset + above.width) :
    c.lineCell i.offset =
      if c.endLine above = some i.line then "   | " else numberCell i.line := by
  have pos : 0 < i.offset := by
    rw [behind, Instruction.width]
    omega
  rw [lineCell, lineAt?_of_decode here, endLine, ← behind]
  simp only [pos, true_and, eq_comm (a := some i.line)]
  rfl

theorem Lists.decode (lists : c.Lists offset is last) : ∀ i ∈ is, c.decode i.offset = .ok i := by
  induction lists with
  | nil => exact List.forall_mem_nil _
  | cons here rest ih => exact List.forall_mem_cons.2 ⟨offset_of_decode here ▸ here, ih⟩

theorem Lists.offset_of_mem_head? (lists : c.Lists offset is last) (first : i ∈ is.head?) :
    i.offset = offset := by
  cases lists with
  | nil => cases first
  | cons here rest => exact Option.mem_some.1 first ▸ offset_of_decode here

/-- The line column of the rows behind the first. -/
theorem Lists.lineCell (lists : c.Lists offset is last) :
    is.IsChain fun above i => c.lineCell i.offset =
      if c.endLine above = some i.line then "   | " else numberCell i.line := by
  induction lists with
  | nil => exact .nil
  | cons here rest ih =>
    refine List.isChain_cons.2 ⟨fun i first => ?_, ih⟩
    refine lineCell_behind (rest.decode i (List.mem_of_mem_head? first)) ?_
    rw [offset_of_decode here, rest.offset_of_mem_head? first]

end

/-! ## Reading the column back -/

/-- The line that a row shows, a bar being for the line above. -/
def readLine (above : Option UInt32) (row : String) : Option UInt32 :=
  let behind := (row.toList.dropWhile Char.isDigit).dropWhile (· == ' ')
  if behind.head? = some '|' then above
  else some (UInt32.ofNat (Nat.ofDigitChars 10 (behind.takeWhile Char.isDigit) 0))

/-- The lines that rows show, from the first to the last. -/
def readLines : Option UInt32 → List String → List (Option UInt32)
  | _, [] => []
  | above, row :: rows => readLine above row :: readLines (readLine above row) rows

section
variable {c : Chunk} {offset last : Nat} {is : List Instruction} (heap : Heap)

theorem toList_toString (n : Nat) : (toString n).toList = Nat.toDigits 10 n := by
  rw [Nat.toString_eq_ofList_toDigits, String.toList_ofList]

theorem forall_isDigit_toString (n : Nat) : ∀ d ∈ (toString n).toList, d.isDigit = true := by
  rw [toList_toString]
  exact fun d inside => Nat.isDigit_of_mem_toDigits (by decide) (by decide) inside

theorem exists_digit (n : Nat) : ∃ d ds, (toString n).toList = d :: ds ∧ d.isDigit = true := by
  obtain ⟨d, ds, split⟩ := List.exists_cons_of_ne_nil (Nat.toDigits_ne_nil (b := 10) (n := n))
  rw [← toList_toString] at split
  exact ⟨d, ds, split, forall_isDigit_toString n d (split ▸ List.mem_cons_self)⟩

theorem toList_row (c : Chunk) (offset : Nat) :
    (c.row heap offset).toList = (Text.alignRight '0' 4 (toString offset)).toList ++
      ' ' :: ((c.lineCell offset).toList ++ (c.rowText heap offset).toList) := by
  simp only [row, String.toList_append, List.append_assoc]
  rfl

theorem forall_isDigit_offset (offset : Nat) :
    ∀ d ∈ (Text.alignRight '0' 4 (toString offset)).toList, d.isDigit = true := by
  rw [Text.alignRight, String.toList_append, String.toList_ofList, List.forall_mem_append]
  refine ⟨fun d inside => ?_, forall_isDigit_toString offset⟩
  rw [List.eq_of_mem_replicate inside]
  rfl

/-- Behind the offset there is a blank, the cell of the line, and what the row says. -/
theorem dropWhile_row (c : Chunk) (offset : Nat) :
    (c.row heap offset).toList.dropWhile Char.isDigit =
      ' ' :: ((c.lineCell offset).toList ++ (c.rowText heap offset).toList) := by
  rw [toList_row, List.dropWhile_append_of_pos (forall_isDigit_offset offset)]
  rfl

theorem readLine_bar {above : Option UInt32} (bar : c.lineCell offset = "   | ") :
    readLine above (c.row heap offset) = above := by
  rw [readLine, dropWhile_row, bar]
  rfl

theorem toList_numberCell (line : UInt32) :
    (numberCell line).toList = List.replicate (4 - (toString line).length) ' ' ++
      ((toString line.toNat).toList ++ [' ']) := by
  rw [numberCell, Text.alignRight, String.toList_append, String.toList_append,
    String.toList_ofList, List.append_assoc]
  rfl

/-- The blanks in front of a number end with its first digit. -/
theorem dropWhile_number (line : UInt32) (text : List Char) :
    (' ' :: ((numberCell line).toList ++ text)).dropWhile (· == ' ') =
      (toString line.toNat).toList ++ ' ' :: text := by
  obtain ⟨d, ds, split, digit⟩ := exists_digit line.toNat
  have blanks : ∀ e ∈ List.replicate (4 - (toString line).length) ' ', (e == ' ') = true :=
    fun e inside => beq_iff_eq.2 (List.eq_of_mem_replicate inside)
  rw [toList_numberCell, List.append_assoc, List.append_assoc, List.dropWhile_cons_of_pos rfl,
    List.dropWhile_append_of_pos blanks, split, List.cons_append, List.dropWhile_cons_of_neg]
  · rfl
  · intro blank
    rw [eq_of_beq blank] at digit
    cases digit

theorem readLine_number {above : Option UInt32} {line : UInt32}
    (number : c.lineCell offset = numberCell line) :
    readLine above (c.row heap offset) = some line := by
  obtain ⟨d, ds, split, digit⟩ := exists_digit line.toNat
  have value : Nat.ofDigitChars 10 (toString line.toNat).toList 0 = line.toNat := by
    rw [toList_toString, Nat.ofDigitChars_toDigits (by decide) (by decide)]
  rw [readLine, dropWhile_row, number, dropWhile_number, if_neg,
    List.takeWhile_append_of_pos (forall_isDigit_toString line.toNat),
    List.takeWhile_cons_of_neg (by decide), List.append_nil, value, UInt32.ofNat_toNat]
  rw [split]
  intro bar
  rw [Option.some.inj bar] at digit
  cases digit

/-- The lines of the instructions behind another are read back just if no instruction has the line
that the one above it ends on, but not the one it starts on. -/
theorem readLines_rows (lists : c.Lists offset is last) {above : Instruction}
    (behind : offset = above.offset + above.width) :
    readLines (some above.line) (is.map fun i => c.row heap i.offset) = is.map (some ·.line) ↔
      (above :: is).IsChain fun above i =>
        c.endLine above = some i.line → above.line = i.line := by
  induction lists generalizing above with
  | nil => exact ⟨fun _ => .singleton _, fun _ => rfl⟩
  | @cons i is offset last here rest ih =>
    have start := offset_of_decode here
    rw [← start] at here behind
    have cell := lineCell_behind here behind
    have first : readLine (some above.line) (c.row heap i.offset) = some i.line ↔
        (c.endLine above = some i.line → above.line = i.line) := by
      by_cases ends : c.endLine above = some i.line
      · rw [if_pos ends] at cell
        rw [readLine_bar heap cell, Option.some_inj]
        exact ⟨fun same _ => same, fun same => same ends⟩
      · rw [if_neg ends] at cell
        rw [readLine_number heap cell]
        exact ⟨fun _ ends' => absurd ends' ends, fun _ => rfl⟩
    have next : offset + i.width = i.offset + i.width := by rw [start]
    have others := ih next
    rw [List.map_cons, List.map_cons, readLines, List.cons.injEq, List.isChain_cons_cons, ← first,
      ← others]
    exact and_congr_right fun same => by rw [same]

end

/-- **What a bar stands for.** In the listing of a chunk that was accepted and is disassembled there
is a row for each instruction. The first shows its line. Any other has a bar just if the
instruction above it ends on its line, and else shows its line. So if the runs end with instructions
a bar says that the line is that of the row above; and the lines of all instructions are read back
from the rows just if none has the line that the one above it ends on but does not start on. -/
theorem line_column_of_parts {code : Array UInt8} {constants : Array Value}
    {lines : Array LineRun} {c : Chunk} (made : ofParts? code constants lines = some c)
    {is : List Instruction} (disassembled : c.disassemble = .ok is) (heap : Heap) :
    c.rowOffsets = is.map (·.offset) ∧
      (∀ i ∈ is.head?, c.lineCell i.offset = numberCell i.line) ∧
      (is.IsChain fun above i => c.lineCell i.offset =
        if c.endLine above = some i.line then "   | " else numberCell i.line) ∧
      ((∀ i ∈ is, c.endLine i = some i.line) → is.IsChain fun above i =>
        c.lineCell i.offset = if above.line = i.line then "   | " else numberCell i.line) ∧
      (readLines none (c.rowOffsets.map (c.row heap)) = is.map (some ·.line) ↔
        is.IsChain fun above i => c.endLine above = some i.line → above.line = i.line) := by
  have covered : c.Covered := by
    obtain ⟨rfl, -, sum⟩ := ofParts?_eq_some_iff.1 made
    exact (LineRun.covered_eq_sum _).trans sum
  have whole : c.Rows 0 c.rowOffsets := rows_rowOffsetsFrom covered 0 (Nat.zero_le _)
  obtain ⟨lists, rows⟩ := whole.of_disassembled disassembled
  have cells := lists.lineCell
  refine ⟨rows, fun i first => ?_, cells, fun ends => ?_, ?_⟩
  · have start := lists.offset_of_mem_head? first
    have here := lists.decode i (List.mem_of_mem_head? first)
    rw [start] at here ⊢
    exact lineCell_zero here
  · refine cells.imp_of_mem_imp fun above i there _ cell => ?_
    rw [cell, ends above there]
    simp only [Option.some_inj]
  · rw [rows, List.map_map]
    generalize c.size = last at lists
    cases lists with
    | nil => exact ⟨fun _ => .nil, fun _ => rfl⟩
    | cons here rest =>
      have start := offset_of_decode here
      have shown := @readLine_number _ _ heap none _ (lineCell_zero here)
      have others := readLines_rows heap rest (by rw [start])
      rw [← others, List.map_cons, List.map_cons, readLines, Function.comp, start, shown]
      exact List.cons_inj_right _

/-- The first run ends inside the load, so the bar of the other row is not for the line above it. -/
theorem line_column_of_parts_straddled :
    let c : Chunk := ⟨#[0, 0, 21], #[.integer 1], #[⟨1, 1⟩, ⟨2, 2⟩]⟩
    let is : List Instruction := [⟨0, .constant, some 0, 1⟩, ⟨2, .finish, none, 2⟩]
    ofParts? c.code c.constants c.lines = some c ∧ c.disassemble = .ok is ∧
      readLines none (c.rowOffsets.map (c.row .new)) ≠ is.map (some ·.line) := by
  intro c is
  have made : ofParts? c.code c.constants c.lines = some c := by cbv
  have disassembled : c.disassemble = .ok is := by cbv
  refine ⟨made, disassembled, fun read => ?_⟩
  have chain := (line_column_of_parts made disassembled .new).2.2.2.2.1 read
  have same : (1 : UInt32) = 2 := (List.isChain_cons_cons.1 chain).1 (by cbv)
  exact absurd same (by decide)

/-- Chunks that were accepted, of the same code but other lines, have one listing, in which a row
that is the only one of its line has a bar. -/
theorem line_column_ambiguous :
    let c : Chunk := ⟨#[0, 0, 21], #[.integer 1], #[⟨1, 1⟩, ⟨2, 2⟩]⟩
    let d : Chunk := ⟨#[0, 0, 21], #[.integer 1], #[⟨1, 3⟩]⟩
    ofParts? c.code c.constants c.lines = some c ∧ ofParts? d.code d.constants d.lines = some d ∧
      c.disassemble = .ok [⟨0, .constant, some 0, 1⟩, ⟨2, .finish, none, 2⟩] ∧
      d.disassemble = .ok [⟨0, .constant, some 0, 1⟩, ⟨2, .finish, none, 1⟩] ∧
      c.listing .new "code" =
        "== code ==\n0000    1 OP_CONSTANT         0 '1'\n0002    | OP_RETURN\n" ∧
      d.listing .new "code" = c.listing .new "code" := by
  refine ⟨?_, ?_, ?_, ?_, ?_, ?_⟩ <;> cbv

end Pseudocode.Chunk
