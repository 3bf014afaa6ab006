import Pseudocode.Bytecode.Opcode
import Pseudocode.Value
/-!
# Chunks

A chunk is one compiled expression: the bytes of its instructions, a pool of constants and the line
of every byte. The lines are kept as runs of bytes of one line, counted in words of 32 bits that
wrap: the byte that is the 2^32nd of its run leaves a run of none.

* `lineAt?_eq_getElem?`: looking up a line finds it in the list of the lines of all bytes;
* `isSome_lineAt?`: a line is known for the covered bytes and no other;
* `write_cases`: what writing a byte does to the runs;
* `byteLines_write`: writing a byte adds its line to that list, while no run counts to 2^32.
-/
namespace Pseudocode

/-- So many bytes in a row that belong to one line. -/
structure LineRun where
  line : UInt32
  count : UInt32
  deriving DecidableEq, Repr

namespace LineRun

/-- The line of every byte. -/
def byteLines (runs : List LineRun) : List UInt32 :=
  runs.flatMap fun r => List.replicate r.count.toNat r.line

/-- Number of bytes that the runs cover. -/
def covered : List LineRun → Nat
  | [] => 0
  | r :: rs => r.count.toNat + covered rs

/-- The line of the byte at `offset` (`Chunk::line_at`). -/
def lineAt? : List LineRun → Nat → Option UInt32
  | [], _ => none
  | r :: rs, offset =>
    if offset < r.count.toNat then some r.line else lineAt? rs (offset - r.count.toNat)

/-- The runs with one more byte behind them (`Chunk::write`). -/
def write (runs : Array LineRun) (line : UInt32) : Array LineRun :=
  match runs.back? with
  | some r =>
    if r.line = line then runs.pop.push ⟨line, r.count + 1⟩ else runs.push ⟨line, 1⟩
  | none => runs.push ⟨line, 1⟩

end LineRun

structure Chunk where
  code : Array UInt8
  constants : Array Value
  lines : Array LineRun
  deriving DecidableEq, Repr

/-- The pool of constants is full. -/
structure PoolFull where
  line : UInt32
  deriving DecidableEq, Repr

namespace Chunk

/-- The largest index that the short form of a constant load can carry. -/
def maxShortIndex : Nat := 255

/-- The number of constants that the long form of a constant load can tell apart. -/
def maxConstants : Nat := 0x1000000

/-- A chunk without code (`Chunk::new`). -/
def empty : Chunk := ⟨#[], #[], #[]⟩

/-- Number of bytes of the code (`Chunk::len`). -/
def size (c : Chunk) : Nat := c.code.size

/-- Writes a byte that belongs to the line (`Chunk::write`). -/
def write (c : Chunk) (b : UInt8) (line : UInt32) : Chunk :=
  ⟨c.code.push b, c.constants, LineRun.write c.lines line⟩

def writeAll (c : Chunk) (bs : List UInt8) (line : UInt32) : Chunk :=
  bs.foldl (fun c b => c.write b line) c

/-- Adds a constant to the pool, and gives its index (`add_constant`). -/
def addConstant (c : Chunk) (v : Value) (line : UInt32) : Except PoolFull (Nat × Chunk) :=
  if maxConstants ≤ c.constants.size then .error ⟨line⟩
  else .ok (c.constants.size, ⟨c.code, c.constants.push v, c.lines⟩)

/-- The bytes of the load of a constant, the short form if it can carry the index. -/
def loadBytes (index : Nat) : List UInt8 :=
  if index ≤ maxShortIndex then [Opcode.constant.toByte, UInt8.ofNat index]
  else [Opcode.constantLong.toByte, UInt8.ofNat index, UInt8.ofNat (index / 256),
    UInt8.ofNat (index / 65536)]

/-- Adds a constant to the pool and writes its load (`write_constant`). -/
def writeConstant (c : Chunk) (v : Value) (line : UInt32) : Except PoolFull (Nat × Chunk) := do
  let (index, c) ← c.addConstant v line
  return (index, c.writeAll (loadBytes index) line)

/-- The line of the byte at `offset` (`Chunk::line_at`). -/
def lineAt? (c : Chunk) (offset : Nat) : Option UInt32 := LineRun.lineAt? c.lines.toList offset

/-- Do the runs cover the code and nothing else, each a byte at least? -/
def isCoveredBy (code : Array UInt8) (lines : Array LineRun) : Bool :=
  LineRun.covered lines.toList = code.size && lines.all fun r => r.count != 0

/-- The chunk made of these parts, if the lines cover the code (`from_parts`). -/
def ofParts? (code : Array UInt8) (constants : Array Value) (lines : Array LineRun) :
    Option Chunk :=
  if isCoveredBy code lines then some ⟨code, constants, lines⟩ else none

end Chunk

def PoolFull.message (e : PoolFull) : String :=
  "line " ++ toString e.line ++ ": too many constants in one chunk (limit " ++
    toString Chunk.maxConstants ++ ")"

namespace LineRun

@[simp] theorem byteLines_nil : byteLines [] = [] := rfl

@[simp] theorem byteLines_append (rs ss : List LineRun) :
    byteLines (rs ++ ss) = byteLines rs ++ byteLines ss := by
  simp [byteLines]

theorem length_byteLines (runs : List LineRun) : (byteLines runs).length = covered runs := by
  induction runs with
  | nil => rfl
  | cons r rs ih =>
    rw [byteLines, List.flatMap_cons, ← byteLines, List.length_append, ih]
    simp [covered]

/-- Looking up a line finds it in the list of the lines of all bytes. -/
theorem lineAt?_eq_getElem? (runs : List LineRun) (offset : Nat) :
    lineAt? runs offset = (byteLines runs)[offset]? := by
  induction runs generalizing offset with
  | nil => simp [lineAt?]
  | cons r rs ih =>
    rw [lineAt?, byteLines, List.flatMap_cons, ← byteLines]
    split
    · rename_i inside
      rw [List.getElem?_append_left (by simpa using inside)]
      simp [inside]
    · rename_i outside
      rw [List.getElem?_append_right (by simpa using outside), List.length_replicate, ih]

theorem isSome_lineAt? (runs : List LineRun) (offset : Nat) :
    (lineAt? runs offset).isSome ↔ offset < covered runs := by
  rw [lineAt?_eq_getElem?, ← length_byteLines]
  simp

theorem covered_append (rs ss : List LineRun) : covered (rs ++ ss) = covered rs + covered ss := by
  rw [← length_byteLines, byteLines_append, List.length_append, length_byteLines, length_byteLines]

/-- A byte makes the last run longer, if that is of its line, or starts a run. -/
theorem write_cases (runs : Array LineRun) (line : UInt32) :
    (∃ front count, runs.toList = front ++ [⟨line, count⟩] ∧
      (write runs line).toList = front ++ [⟨line, count + 1⟩]) ∨
    ((write runs line).toList = runs.toList ++ [⟨line, 1⟩] ∧
      ∀ r ∈ runs.toList.getLast?, r.line ≠ line) := by
  unfold write
  split
  · rename_i r last
    obtain ⟨front, rfl⟩ := Array.back?_eq_some_iff.1 last
    split
    · rename_i same
      subst same
      exact .inl ⟨front.toList, r.count, by simp, by simp⟩
    · rename_i other
      refine .inr ⟨by simp, fun s final => ?_⟩
      obtain rfl : r = s := by simpa using final
      exact other
  · rename_i none
    refine .inr ⟨by simp, fun s final => ?_⟩
    rw [Array.getLast?_toList, none] at final
    cases final

/-- The count of a run does not wrap while fewer bytes than a word can count are covered. -/
theorem toNat_count_succ {front : List LineRun} {line count : UInt32}
    (room : covered (front ++ [⟨line, count⟩]) + 1 < UInt32.size) :
    (count + 1).toNat = count.toNat + 1 := by
  simp only [covered_append, covered, UInt32.size] at room
  rw [UInt32.toNat_add, UInt32.toNat_one, Nat.mod_eq_of_lt (by omega)]

/-- Writing a byte adds its line behind those of the bytes before it, unless a count wraps. -/
theorem byteLines_write (runs : Array LineRun) (line : UInt32)
    (room : covered runs.toList + 1 < UInt32.size) :
    byteLines (write runs line).toList = byteLines runs.toList ++ [line] := by
  rcases write_cases runs line with ⟨front, count, whole, written⟩ | ⟨written, -⟩
  · rw [whole] at room
    rw [written, whole]
    simp [byteLines, toNat_count_succ room, List.replicate_succ']
  · rw [written]
    simp [byteLines]

end LineRun

end Pseudocode
