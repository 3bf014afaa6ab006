import Mathlib.Algebra.Group.Nat.Defs
import Pseudocode.Machine.Run
/-!
# Writing a chunk

Code is only ever written behind the code there is: the bytes and the constants before are a front
part of those after (`Grows`), and so are the lines, while the code has fewer bytes than a run can
count. So what a write put at an offset is found there in every chunk that goes on from it, which is
how compiled code is read back.

* `Lined`: there is a line for every byte, unless the bytes are too many to be counted;
* `getElem?_of_writeAll`, `lineAt?_of_writeAll`: the bytes written and their line;
* `writeConstant_eq_ok_iff`: when a constant is accepted, and what is written for it;
* `loadIndex?_of_load`: the index that a written load carries is the index of its constant.
-/
namespace Pseudocode.Chunk

/-- There is a line for every byte of code. -/
def Covered (c : Chunk) : Prop := LineRun.covered c.lines.toList = c.size

/-- There is a line for every byte of code, if the bytes are few enough to be counted in one run. -/
def Lined (c : Chunk) : Prop := c.size < 2 ^ 32 → c.Covered

/-- The code and the constants of `c` are front parts of those of `d`. So are the lines, and there
is still one for every byte, if the bytes are few enough to be counted in one run. -/
structure Grows (c d : Chunk) : Prop where
  code : c.code.toList <+: d.code.toList
  constants : c.constants.toList <+: d.constants.toList
  lines : d.size < 2 ^ 32 → c.Covered →
    d.Covered ∧ LineRun.byteLines c.lines.toList <+: LineRun.byteLines d.lines.toList

theorem Grows.size_le {c d : Chunk} (grows : c.Grows d) : c.size ≤ d.size := by
  simpa [size] using grows.code.length_le

theorem Grows.refl (c : Chunk) : c.Grows c :=
  ⟨List.prefix_rfl, List.prefix_rfl, fun _ covered => ⟨covered, List.prefix_rfl⟩⟩

theorem Grows.trans {a b c : Chunk} (ab : a.Grows b) (bc : b.Grows c) : a.Grows c where
  code := ab.code.trans bc.code
  constants := ab.constants.trans bc.constants
  lines := fun few covered => by
    obtain ⟨covered, front⟩ := ab.lines (Nat.lt_of_le_of_lt bc.size_le few) covered
    obtain ⟨covered, front'⟩ := bc.lines few covered
    exact ⟨covered, front.trans front'⟩

theorem Grows.lined {c d : Chunk} (grows : c.Grows d) (lined : c.Lined) : d.Lined :=
  fun few => (grows.lines few (lined (Nat.lt_of_le_of_lt grows.size_le few))).1

theorem lined_empty : empty.Lined := fun _ => rfl

/-- Where the lines cover the code, every byte of the code and nothing else has a line. -/
theorem Covered.lineAt?_eq_none_iff {c : Chunk} (covered : c.Covered) {offset : Nat} :
    c.lineAt? offset = none ↔ c.size ≤ offset := by
  have known := LineRun.isSome_lineAt? c.lines.toList offset
  rw [covered] at known
  rw [← Option.not_isSome_iff_eq_none, lineAt?, known, Nat.not_lt]

/-! ## Bytes -/

theorem code_writeAll (c : Chunk) (bs : List UInt8) (line : UInt32) :
    (c.writeAll bs line).code.toList = c.code.toList ++ bs := by
  induction bs generalizing c with
  | nil => simp [writeAll]
  | cons b bs ih =>
    rw [writeAll, List.foldl_cons, ← writeAll, ih]
    simp [write]

theorem constants_writeAll (c : Chunk) (bs : List UInt8) (line : UInt32) :
    (c.writeAll bs line).constants = c.constants := by
  induction bs generalizing c with
  | nil => rfl
  | cons b bs ih =>
    rw [writeAll, List.foldl_cons, ← writeAll, ih]
    rfl

theorem size_writeAll (c : Chunk) (bs : List UInt8) (line : UInt32) :
    (c.writeAll bs line).size = c.size + bs.length := by
  have whole := congrArg List.length (code_writeAll c bs line)
  simpa [size] using whole

theorem size_write (c : Chunk) (b : UInt8) (line : UInt32) : (c.write b line).size = c.size + 1 :=
  size_writeAll c [b] line

theorem byteLines_writeAll {c : Chunk} (bs : List UInt8) (line : UInt32)
    (room : LineRun.covered c.lines.toList + bs.length < 2 ^ 32) :
    LineRun.byteLines (c.writeAll bs line).lines.toList =
      LineRun.byteLines c.lines.toList ++ List.replicate bs.length line := by
  induction bs generalizing c with
  | nil => simp [writeAll]
  | cons b bs ih =>
    rw [List.length_cons] at room
    have one : LineRun.byteLines (c.write b line).lines.toList =
        LineRun.byteLines c.lines.toList ++ [line] :=
      LineRun.byteLines_write _ line (by rw [UInt32.size]; omega)
    have more : LineRun.covered (c.write b line).lines.toList =
        LineRun.covered c.lines.toList + 1 := by
      rw [← LineRun.length_byteLines, one, List.length_append, LineRun.length_byteLines]
      rfl
    rw [writeAll, List.foldl_cons, ← writeAll, ih (by omega), one, List.append_assoc]
    rfl

theorem grows_writeAll (c : Chunk) (bs : List UInt8) (line : UInt32) :
    c.Grows (c.writeAll bs line) where
  code := by rw [code_writeAll]; exact List.prefix_append _ _
  constants := ⟨[], by rw [constants_writeAll, List.append_nil]⟩
  lines := fun few covered => by
    rw [size_writeAll, ← covered] at few
    have whole := byteLines_writeAll bs line few
    refine ⟨?_, whole ▸ List.prefix_append _ _⟩
    rw [Covered, size_writeAll, ← covered, ← LineRun.length_byteLines, whole, List.length_append,
      LineRun.length_byteLines, List.length_replicate]

theorem getElem?_of_writeAll {c d : Chunk} {bs : List UInt8} {line : UInt32}
    (grows : (c.writeAll bs line).Grows d) {i : Nat} (inside : i < bs.length) :
    d.code[c.size + i]? = bs[i]? := by
  obtain ⟨more, whole⟩ := grows.code
  rw [code_writeAll] at whole
  rw [← Array.getElem?_toList, ← whole, List.append_assoc, size, ← Array.length_toList,
    List.getElem?_append_right (by omega), Nat.add_sub_cancel_left,
    List.getElem?_append_left inside]

/-- The line of the bytes written, in code that is not too long to be counted. -/
theorem lineAt?_of_writeAll {c d : Chunk} {bs : List UInt8} {line : UInt32} (lined : c.Lined)
    (grows : (c.writeAll bs line).Grows d) {i : Nat} (inside : i < bs.length)
    (few : d.size < 2 ^ 32) : d.lineAt? (c.size + i) = some line := by
  have here := grows_writeAll c bs line
  have written := Nat.lt_of_le_of_lt grows.size_le few
  have covered : c.Covered := lined (Nat.lt_of_le_of_lt here.size_le written)
  obtain ⟨-, more, whole⟩ := grows.lines few (here.lined lined written)
  have before : (LineRun.byteLines c.lines.toList).length = c.size := by
    rw [LineRun.length_byteLines, covered]
  rw [size_writeAll, ← covered] at written
  rw [byteLines_writeAll bs line written] at whole
  rw [lineAt?, LineRun.lineAt?_eq_getElem?, ← whole, List.append_assoc,
    List.getElem?_append_right (by omega), before, Nat.add_sub_cancel_left,
    List.getElem?_append_left (by simpa using inside), List.getElem?_replicate, if_pos inside]

theorem getElem?_of_write {c d : Chunk} {b : UInt8} {line : UInt32}
    (grows : (c.write b line).Grows d) : d.code[c.size]? = some b :=
  @getElem?_of_writeAll c d [b] line grows 0 Nat.zero_lt_one

theorem lineAt?_of_write {c d : Chunk} {b : UInt8} {line : UInt32} (lined : c.Lined)
    (grows : (c.write b line).Grows d) (few : d.size < 2 ^ 32) : d.lineAt? c.size = some line :=
  @lineAt?_of_writeAll c d [b] line lined grows 0 Nat.zero_lt_one few

theorem grows_write (c : Chunk) (b : UInt8) (line : UInt32) : c.Grows (c.write b line) :=
  grows_writeAll c [b] line

/-! ## Constants -/

def withConstant (c : Chunk) (v : Value) : Chunk := ⟨c.code, c.constants.push v, c.lines⟩

/-- The operation that loads the constant with the given index. -/
def loadOpcode (index : Nat) : Opcode :=
  if index ≤ maxShortIndex then .constant else .constantLong

theorem grows_withConstant (c : Chunk) (v : Value) : c.Grows (c.withConstant v) where
  code := List.prefix_rfl
  constants := by simp [withConstant]
  lines := fun _ covered => ⟨covered, List.prefix_rfl⟩

/-- A constant is accepted just if the pool has room; its load is written behind the code. -/
theorem writeConstant_eq_ok_iff {c d : Chunk} {v : Value} {line : UInt32} {index : Nat} :
    c.writeConstant v line = .ok (index, d) ↔
      c.constants.size < maxConstants ∧ index = c.constants.size ∧
        d = (c.withConstant v).writeAll (loadBytes index) line := by
  unfold writeConstant addConstant
  split
  · rename_i full
    simp [bind, Except.bind]
    omega
  · rename_i room
    simp only [bind, Except.bind, pure, Except.pure, Except.ok.injEq, Prod.mk.injEq]
    constructor
    · intro given
      obtain ⟨rfl, rfl⟩ := given
      exact ⟨Nat.lt_of_not_le room, rfl, rfl⟩
    · intro given
      obtain ⟨-, rfl, rfl⟩ := given
      exact ⟨rfl, rfl⟩

theorem length_loadBytes (index : Nat) :
    (loadBytes index).length = 1 + (loadOpcode index).operandSize := by
  unfold loadBytes loadOpcode
  split <;> rfl

theorem loadBytes_head (index : Nat) :
    (loadBytes index)[0]? = some (loadOpcode index).toByte := by
  unfold loadBytes loadOpcode
  split <;> rfl

theorem three_bytes {index : Nat} (small : index < maxConstants) :
    (UInt8.ofNat index).toNat + 256 * (UInt8.ofNat (index / 256)).toNat +
      65536 * (UInt8.ofNat (index / 65536)).toNat = index := by
  simp only [UInt8.toNat_ofNat', maxConstants] at *
  omega

/-- The index that a written load carries. -/
theorem loadIndex?_of_load {c d : Chunk} {line : UInt32} {index : Nat}
    (small : index < maxConstants) (grows : (c.writeAll (loadBytes index) line).Grows d) :
    d.loadIndex? c.size (loadOpcode index) = some index := by
  have bytes {i : Nat} (inside : i < (loadBytes index).length) := getElem?_of_writeAll grows inside
  by_cases short : index ≤ maxShortIndex
  · have load : loadBytes index = [Opcode.constant.toByte, UInt8.ofNat index] := if_pos short
    rw [load] at bytes
    have first := @bytes 1 (by simp)
    rw [loadOpcode, if_pos short, loadIndex?, first]
    simp only [maxShortIndex] at short
    simp
    omega
  · have load : loadBytes index = [Opcode.constantLong.toByte, UInt8.ofNat index,
        UInt8.ofNat (index / 256), UInt8.ofNat (index / 65536)] := if_neg short
    rw [load] at bytes
    have first := @bytes 1 (by simp)
    have second := @bytes 2 (by simp)
    have third := @bytes 3 (by simp)
    rw [loadOpcode, if_neg short, loadIndex?, first, second, third]
    · exact congrArg some (three_bytes small)
    · exact fun h => by cases h

theorem getElem?_of_withConstant {c d : Chunk} {v : Value} (grows : (c.withConstant v).Grows d) :
    d.constants[c.constants.size]? = some v := by
  obtain ⟨more, whole⟩ := grows.constants
  rw [← Array.getElem?_toList, ← whole]
  simp [withConstant]

/-- The load of the constant `v` behind the code of `c`, as it is found in a chunk that goes on from
there. -/
structure LoadsNext (c whole : Chunk) (v : Value) (line : UInt32) : Prop where
  code : whole.code[c.size]? = some (loadOpcode c.constants.size).toByte
  line : whole.size < 2 ^ 32 → whole.lineAt? c.size = some line
  index : whole.loadIndex? c.size (loadOpcode c.constants.size) = some c.constants.size
  constant : whole.constants[c.constants.size]? = some v

theorem loadsNext {c whole : Chunk} {v : Value} {line : UInt32} (lined : c.Lined)
    (small : c.constants.size < maxConstants)
    (inside : ((c.withConstant v).writeAll (loadBytes c.constants.size) line).Grows whole) :
    c.LoadsNext whole v line := by
  have filled : (c.withConstant v).Lined := (c.grows_withConstant v).lined lined
  have nonempty : 0 < (loadBytes c.constants.size).length := by
    rw [length_loadBytes]
    omega
  have found := getElem?_of_writeAll inside nonempty
  rw [loadBytes_head] at found
  have carried := loadIndex?_of_load (c := c.withConstant v) small inside
  exact ⟨found, lineAt?_of_writeAll filled inside nonempty, carried,
    getElem?_of_withConstant ((grows_writeAll _ _ _).trans inside)⟩

theorem size_load (c : Chunk) (v : Value) (line : UInt32) :
    ((c.withConstant v).writeAll (loadBytes c.constants.size) line).size =
      c.size + (1 + (loadOpcode c.constants.size).operandSize) := by
  rw [size_writeAll, length_loadBytes]
  rfl

theorem size_writeUnary (c : Chunk) (op : UnaryOp) (line : UInt32) :
    (c.write (Opcode.ofUnary op).toByte line).size =
      c.size + (1 + (Opcode.ofUnary op).operandSize) := by
  rw [size_write]
  cases op <;> rfl

theorem size_writeBinary (c : Chunk) (op : BinaryOp) (line : UInt32) :
    (c.write (Opcode.ofBinary op).toByte line).size =
      c.size + (1 + (Opcode.ofBinary op).operandSize) := by
  rw [size_write]
  cases op <;> rfl

end Pseudocode.Chunk
