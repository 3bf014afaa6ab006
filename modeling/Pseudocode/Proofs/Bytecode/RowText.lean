import Pseudocode.Proofs.Bytecode.LineColumn
/-!
# What a row says

A row is made of words with blanks between them: its offset, its line, and the name of the operation
or what is wrong. Only a load has more, the index of its constant and what that is. So the words
tell which instruction the row is for: two rows that are the same, in listings of any chunks, are at
one offset and for one operation with one operand.

* `Begins`: a text begins with a word;
* `readRow`: the offset of a row, and the operation and the operand that it names;
* `readRow_row`: they are those of the instruction that is decoded there.
-/
namespace Pseudocode

/-- The operation of the given name. -/
def Opcode.ofName? (name : String) : Option Opcode := Opcode.all.find? fun op => op.name == name

theorem Opcode.ofName?_name (op : Opcode) : ofName? op.name = some op := by
  cases op <;> rfl

namespace Chunk

/-! ## Words -/

/-- The first word of a text. -/
def firstWord (text : List Char) : List Char := (text.dropWhile (· == ' ')).takeWhile (· != ' ')

/-- What is behind the first word of a text. -/
def behindWord (text : List Char) : List Char := (text.dropWhile (· == ' ')).dropWhile (· != ' ')

/-- The text begins with a word, perhaps behind blanks, and goes on with the rest. -/
structure Begins (text word rest : List Char) : Prop where
  split : ∃ blanks, text = List.replicate blanks ' ' ++ (word ++ rest)
  nonempty : word ≠ []
  solid : ∀ c ∈ word, c ≠ ' '
  ends : ∀ c ∈ rest.head?, c = ' '

section
variable {text word rest : List Char}

theorem Begins.dropWhile (begins : Begins text word rest) :
    text.dropWhile (· == ' ') = word ++ rest := by
  obtain ⟨blanks, rfl⟩ := begins.split
  obtain ⟨c, cs, rfl⟩ := List.exists_cons_of_ne_nil begins.nonempty
  rw [List.dropWhile_append_of_pos fun c inside => beq_iff_eq.2 (List.eq_of_mem_replicate inside),
    List.cons_append, List.dropWhile_cons_of_neg]
  simpa using begins.solid c List.mem_cons_self

theorem Begins.firstWord (begins : Begins text word rest) : firstWord text = word := by
  rw [Chunk.firstWord, begins.dropWhile,
    List.takeWhile_append_of_pos fun c inside => bne_iff_ne.2 (begins.solid c inside)]
  cases rest with
  | nil => exact List.append_nil _
  | cons c cs => rw [begins.ends c rfl, List.takeWhile_cons_of_neg (by decide), List.append_nil]

theorem Begins.behindWord (begins : Begins text word rest) : behindWord text = rest := by
  rw [Chunk.behindWord, begins.dropWhile,
    List.dropWhile_append_of_pos fun c inside => bne_iff_ne.2 (begins.solid c inside)]
  cases rest with
  | nil => rfl
  | cons c cs => rw [begins.ends c rfl, List.dropWhile_cons_of_neg (by decide)]

/-- Blanks in front of a text leave its first word. -/
theorem Begins.blank (begins : Begins text word rest) : Begins (' ' :: text) word rest := by
  obtain ⟨⟨blanks, rfl⟩, nonempty, solid, ends⟩ := begins
  exact ⟨⟨blanks + 1, rfl⟩, nonempty, solid, ends⟩

end

/-- Digits have no blanks among them. -/
theorem begins_digits {digits : List Char} (nonempty : digits ≠ [])
    (all : ∀ d ∈ digits, d.isDigit = true) (blanks : Nat) (rest : List Char) :
    Begins (List.replicate blanks ' ' ++ (digits ++ ' ' :: rest)) digits (' ' :: rest) where
  split := ⟨blanks, rfl⟩
  nonempty := nonempty
  solid := fun c inside blank => by
    have digit := all c inside
    rw [blank] at digit
    cases digit
  ends := by simp

theorem begins_toString (n blanks : Nat) (rest : List Char) :
    Begins (List.replicate blanks ' ' ++ ((toString n).toList ++ ' ' :: rest)) (toString n).toList
      (' ' :: rest) := by
  obtain ⟨d, ds, split, -⟩ := exists_digit n
  exact begins_digits (split ▸ List.cons_ne_nil d ds) (forall_isDigit_toString n) blanks rest

/-- The number that digits stand for. -/
def number (digits : List Char) : Nat := Nat.ofDigitChars 10 digits 0

theorem number_toString (n : Nat) : number (toString n).toList = n := by
  rw [toList_toString, number, Nat.ofDigitChars_toDigits (by decide) (by decide)]

theorem number_alignRight (n : Nat) : number (Text.alignRight '0' 4 (toString n)).toList = n := by
  rw [Text.alignRight, String.toList_append, String.toList_ofList, number, Nat.ofDigitChars_append,
    Nat.ofDigitChars_replicate_zero, Nat.mul_zero]
  exact number_toString n

/-! ## Rows -/

/-- The offset that a row begins with, and the operation that it names with its operand. -/
def readRow (row : String) : Nat × Option (Opcode × Option Nat) :=
  let text := behindWord (behindWord row.toList)
  (number (firstWord row.toList),
    (Opcode.ofName? (String.ofList (firstWord text))).map fun op =>
      (op, if op.operandSize = 0 then none else some (number (firstWord (behindWord text)))))

section
variable (c : Chunk) (heap : Heap) (offset : Nat)

/-- A row begins with its offset, in four digits at least. -/
theorem begins_row :
    Begins (c.row heap offset).toList (Text.alignRight '0' 4 (toString offset)).toList
      (' ' :: ((c.lineCell offset).toList ++ (c.rowText heap offset).toList)) := by
  obtain ⟨d, ds, split, -⟩ := exists_digit offset
  have nonempty : (Text.alignRight '0' 4 (toString offset)).toList ≠ [] := by
    rw [Text.alignRight, String.toList_append, split]
    exact List.append_ne_nil_of_right_ne_nil _ (List.cons_ne_nil d ds)
  have begins := begins_digits nonempty (forall_isDigit_offset offset) 0
    ((c.lineCell offset).toList ++ (c.rowText heap offset).toList)
  rwa [List.replicate_zero, List.nil_append, ← toList_row] at begins

/-- The line is one word, whether it is a number or not. -/
theorem begins_lineCell (rest : List Char) :
    ∃ word, Begins (' ' :: ((c.lineCell offset).toList ++ rest)) word (' ' :: rest) := by
  simp only [lineCell]
  split
  · exact ⟨['|'], ⟨4, by simp [List.replicate]⟩, by simp, by simp, by simp⟩
  · split
    · rename_i line _
      refine ⟨(toString line.toNat).toList, .blank ?_⟩
      rw [← numberCell, toList_numberCell, List.append_assoc, List.append_assoc]
      exact begins_toString _ _ _
    · exact ⟨['?'], ⟨4, by simp [List.replicate]⟩, by simp, by simp, by simp⟩

theorem behindWord_row : behindWord (behindWord (c.row heap offset).toList) =
    ' ' :: (c.rowText heap offset).toList := by
  obtain ⟨word, begins⟩ := c.begins_lineCell offset (c.rowText heap offset).toList
  rw [(c.begins_row heap offset).behindWord, begins.behindWord]

end

/-- A word on which only blanks may follow. -/
theorem begins_append {word : String} {rest : List Char} (nonempty : word.toList ≠ [])
    (solid : ∀ c ∈ word.toList, c ≠ ' ') (ends : ∀ c ∈ rest.head?, c = ' ') :
    Begins (' ' :: (word.toList ++ rest)) word.toList rest :=
  ⟨⟨1, rfl⟩, nonempty, solid, ends⟩

/-- The name of an operation is one word. -/
theorem begins_name (op : Opcode) {rest : List Char} (ends : ∀ c ∈ rest.head?, c = ' ') :
    Begins (' ' :: (op.name.toList ++ rest)) op.name.toList rest :=
  begins_append (by cases op <;> simp [Opcode.name]) (by cases op <;> simp [Opcode.name]) ends

section
variable {c : Chunk} {offset : Nat}

theorem operandAt_eq_none_iff {op : Opcode} (inside : offset + op.operandSize < c.size) :
    c.operandAt offset op = none ↔ op.operandSize = 0 := by
  have length : (c.code.extract (offset + 1) (offset + 1 + op.operandSize)).toList.length =
      op.operandSize := by
    rw [size] at inside
    rw [Array.length_toList, Array.size_extract]
    omega
  rw [← operandOfBytes_extract inside]
  generalize (c.code.extract (offset + 1) (offset + 1 + op.operandSize)).toList = bytes at length
  rw [← length]
  cases bytes with
  | nil => exact ⟨fun _ => rfl, fun _ => rfl⟩
  | cons b bs => simp [operandOfBytes]

/-- What is wrong does not begin with the name of an operation. -/
theorem ofName?_of_refused {e : DecodeError} (refused : c.decode offset = .error e) (heap : Heap) :
    Opcode.ofName? (String.ofList (firstWord (' ' :: (c.rowText heap offset).toList))) = none := by
  obtain ⟨word, rest, text, nonempty, solid, unnamed⟩ : ∃ word rest : String,
      c.rowText heap offset = word ++ (" " ++ rest) ∧ word.toList ≠ [] ∧
        (∀ c ∈ word.toList, c ≠ ' ') ∧ Opcode.ofName? word = none := by
    rw [rowText, refused]
    cases e with
    | outOfRange o =>
      refine ⟨"offset", toString o ++ " is past the end of the code", ?_, by simp, by simp,
        by decide⟩
      change "offset " ++ toString o ++ " is past the end of the code" = _
      simp [← String.append_assoc]
    | unknownOpcode o byte =>
      refine ⟨"Unknown", "opcode " ++ toString byte, ?_, by simp, by simp, by decide⟩
      simp [← String.append_assoc]
    | truncated o op =>
      refine ⟨"truncated", "operand for " ++ op.name ++ " at offset " ++ toString o, ?_, by simp,
        by simp, by decide⟩
      change "truncated operand for " ++ op.name ++ " at offset " ++ toString o = _
      simp [← String.append_assoc]
    | missingLine o =>
      refine ⟨"no", "line recorded for offset " ++ toString o, ?_, by simp, by simp, by decide⟩
      change "no line recorded for offset " ++ toString o = _
      simp [← String.append_assoc]
  have blank : ∀ c ∈ (" " ++ rest).toList.head?, c = ' ' := by simp
  rw [text, String.toList_append, (begins_append nonempty solid blank).firstWord,
    String.ofList_toList, unnamed]

/-- The blanks of two cells and the one between them. -/
theorem replicate_cells (left right : Nat) (rest : List Char) :
    List.replicate left ' ' ++ ' ' :: (List.replicate right ' ' ++ rest) =
      List.replicate (left + right + 1) ' ' ++ rest := by
  rw [← List.cons_append, ← List.replicate_succ, ← List.append_assoc,
    List.replicate_append_replicate, Nat.add_assoc]

/-- The name of the operation is the first word behind the line, and its operand the second. -/
theorem begins_rowText {i : Instruction} (here : c.decode offset = .ok i) (heap : Heap) :
    ∃ rest, Begins (' ' :: (c.rowText heap offset).toList) i.opcode.name.toList rest ∧
      ∀ index, i.operand = some index →
        ∃ behind, Begins rest (toString index).toList (' ' :: behind) := by
  simp only [rowText, here]
  cases operand : i.operand with
  | none =>
    have begins : Begins (' ' :: (i.opcode.name.toList ++ [])) i.opcode.name.toList [] :=
      begins_name i.opcode (by simp)
    rw [List.append_nil] at begins
    exact ⟨[], begins, by simp⟩
  | some index =>
    let blanks := 16 - i.opcode.name.length + (4 - (toString index).length) + 1
    let behind := '\'' :: ((c.constantText heap index).toList ++ ['\''])
    let rest := List.replicate blanks ' ' ++ ((toString index).toList ++ ' ' :: behind)
    have text : (Text.alignLeft 16 i.opcode.name ++ " " ++
        Text.alignRight ' ' 4 (toString index) ++ " '" ++ c.constantText heap index ++ "'").toList =
          i.opcode.name.toList ++ rest := by
      simp [rest, blanks, behind, Text.alignLeft, Text.alignRight, ← replicate_cells]
    refine ⟨rest, text ▸ begins_name i.opcode ?_, fun index' same => ⟨behind, ?_⟩⟩
    · intro c first
      exact (Option.some.inj first).symm
    · cases same
      exact begins_toString index blanks behind

/-- A row begins with its offset, and names the operation that is decoded there with its operand, or
no operation if none is decoded. -/
theorem readRow_row (c : Chunk) (heap : Heap) (offset : Nat) :
    readRow (c.row heap offset) =
      (offset, (c.decode offset).toOption.map fun i => (i.opcode, i.operand)) := by
  rw [readRow, behindWord_row, (c.begins_row heap offset).firstWord, number_alignRight]
  refine congrArg (Prod.mk offset) ?_
  have decoded := c.decoded offset
  cases here : c.decode offset with
  | error e => rw [ofName?_of_refused here]; rfl
  | ok i =>
    obtain ⟨rest, begins, more⟩ := begins_rowText here heap
    rw [begins.firstWord, begins.behindWord, String.ofList_toList, Opcode.ofName?_name]
    refine congrArg (fun operand => some (i.opcode, operand)) ?_
    have bare : i.operand = none ↔ i.opcode.operandSize = 0 := by
      rw [here] at decoded
      cases decoded with
      | instruction found inside lined => exact operandAt_eq_none_iff inside
    cases operand : i.operand with
    | none => rw [if_pos (bare.1 operand)]
    | some index =>
      obtain ⟨behind, begins'⟩ := more index operand
      rw [if_neg (mt bare.2 (by rw [operand]; nofun)), begins'.firstWord, number_toString]

/-- Rows that are the same are for the same operation with the same operand at the same offset,
whatever the chunks and the heaps are. -/
theorem decode_of_row_eq {c d : Chunk} {heap heap' : Heap} {offset offset' : Nat}
    (same : c.row heap offset = d.row heap' offset') :
    offset = offset' ∧ (c.decode offset).toOption.map (fun i => (i.opcode, i.operand)) =
      (d.decode offset').toOption.map fun i => (i.opcode, i.operand) := by
  have read := congrArg readRow same
  rw [readRow_row, readRow_row] at read
  exact Prod.mk.inj read

end

end Chunk

end Pseudocode
