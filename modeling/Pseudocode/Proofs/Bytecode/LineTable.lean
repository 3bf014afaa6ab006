import Mathlib
import Pseudocode.Proofs.Bytecode.Emission
/-!
# The line table

A chunk is built by calls that write a byte, write a constant with its load, or put a constant into
the pool. Its runs of lines are the lines of all bytes, run by run: no run is empty, they cover the
code, and looking up a byte finds the line that it was written with. Chunks that are built from
nothing have as few runs as their lines allow, as neighbouring runs are of different lines; the runs
that a chunk is put together from need not be so.

* `LineRun.pos_write`, `LineRun.apart_write`: what writing a byte keeps of the runs;
* `LineRun.length_le_of_chain`: different neighbours need a run each;
* `Chunk.writeConstant_eq_writeInPlace`: writing a constant in place;
* `Chunk.grows_edits`: calls leave alone what is there;
* `Chunk.lines_edits`: what writing a byte keeps of the runs, any calls keep;
* `Chunk.lineAt?_eq_none_of_wrapped`: why runs are told only below 2^32 bytes;
* `Chunk.lineTable_of_edits`: the line table behind any calls.
-/
namespace Pseudocode

/-! ## Runs -/

namespace LineRun

/-- No two neighbouring runs are of the same line. -/
def Apart (runs : List LineRun) : Prop := runs.IsChain fun r s => r.line ≠ s.line

theorem covered_eq_sum (runs : List LineRun) :
    covered runs = (runs.map fun r => r.count.toNat).sum := by
  induction runs with
  | nil => rfl
  | cons r rs ih => rw [covered, ih, List.map_cons, List.sum_cons]

/-- Writing a byte leaves no run empty, while no run counts to 2^32. -/
theorem pos_write {runs : Array LineRun} (line : UInt32)
    (room : covered runs.toList + 1 < 2 ^ 32) (pos : ∀ r ∈ runs.toList, 0 < r.count) :
    ∀ r ∈ (write runs line).toList, 0 < r.count := by
  rcases write_cases runs line with ⟨front, count, whole, written⟩ | ⟨written, -⟩
  · rw [whole] at room pos
    rw [List.forall_mem_append] at pos
    rw [written, List.forall_mem_append, List.forall_mem_singleton]
    exact ⟨pos.1, UInt32.lt_iff_toNat_lt.2 (by rw [toNat_count_succ room]; exact Nat.succ_pos _)⟩
  · rw [written, List.forall_mem_append, List.forall_mem_singleton]
    exact ⟨pos, show (0 : UInt32) < 1 by decide⟩

/-- Writing a byte keeps neighbouring runs apart. -/
theorem apart_write {runs : Array LineRun} (line : UInt32) (apart : Apart runs.toList) :
    Apart (write runs line).toList := by
  unfold Apart at *
  rcases write_cases runs line with ⟨front, count, whole, written⟩ | ⟨written, other⟩
  · rw [whole, List.isChain_append] at apart
    rw [written, List.isChain_append]
    obtain ⟨before, -, border⟩ := apart
    exact ⟨before, .singleton _, by simpa using border⟩
  · rw [written, List.isChain_append]
    refine ⟨apart, .singleton _, fun r last s first => ?_⟩
    obtain rfl : (⟨line, 1⟩ : LineRun) = s := by simpa using first
    exact other r last

/-! ## As few runs as can be -/

/-- The lines of runs that are not empty are among those of the bytes, in their order. -/
theorem lines_sublist {runs : List LineRun} (pos : ∀ r ∈ runs, 0 < r.count) :
    (runs.map line).Sublist (byteLines runs) := by
  induction runs with
  | nil => exact .slnil
  | cons r rs ih =>
    rw [List.forall_mem_cons] at pos
    have one : [r.line].Sublist (List.replicate r.count.toNat r.line) := by
      rw [List.singleton_sublist, List.mem_replicate]
      exact ⟨Nat.pos_iff_ne_zero.1 (UInt32.lt_iff_toNat_lt.1 pos.1), rfl⟩
    exact one.append (ih pos.2)

/-- Lines that differ from their neighbours and are among those of the bytes, in their order, need
a run each. -/
theorem length_le_of_chain {lines : List UInt32} {runs : List LineRun}
    (chain : lines.IsChain (· ≠ ·)) (among : lines.Sublist (byteLines runs)) :
    lines.length ≤ runs.length := by
  induction runs generalizing lines with
  | nil => exact Nat.le_of_eq (congrArg List.length (List.sublist_nil.1 among))
  | cons r rs ih =>
    obtain ⟨first, others, rfl, inside, behind⟩ := List.sublist_append_iff.1 among
    rw [List.isChain_append] at chain
    have short : first.length ≤ 1 := by
      obtain ⟨n, -, rfl⟩ := List.sublist_replicate_iff.1 inside
      match n, chain.1 with
      | 0, _ => exact Nat.zero_le _
      | 1, _ => exact Nat.le_refl _
      | n + 2, chain => exact absurd rfl (List.isChain_cons_cons.1 chain).1
    have := ih chain.2.1 behind
    rw [List.length_append, List.length_cons]
    omega

/-- No other runs that stand for the lines are fewer. -/
theorem length_le_of_apart {runs others : List LineRun} (pos : ∀ r ∈ runs, 0 < r.count)
    (apart : Apart runs) (same : byteLines others = byteLines runs) :
    runs.length ≤ others.length := by
  have chain : (runs.map line).IsChain (· ≠ ·) := (List.isChain_map line).2 apart
  have least := length_le_of_chain chain (same ▸ lines_sublist pos)
  rwa [List.length_map] at least

end LineRun

/-! ## Calls -/

/-- A call that adds to a chunk. -/
inductive Edit where
  /-- Writes a byte of code. -/
  | byte (b : UInt8) (line : UInt32)
  /-- Puts a constant into the pool and writes its load, unless the pool is full. -/
  | load (v : Value) (line : UInt32)
  /-- Puts a constant into the pool, which may be full. -/
  | constant (v : Value)
  deriving DecidableEq, Repr

namespace Edit

/-- The lines of the bytes that a call writes to a chunk with so many constants. -/
def lines (constants : Nat) : Edit → List UInt32
  | byte _ line => [line]
  | load _ line =>
    if constants < Chunk.maxConstants then
      List.replicate (if constants ≤ Chunk.maxShortIndex then 2 else 4) line
    else []
  | constant _ => []

/-- The number of constants behind a call. -/
def count (constants : Nat) : Edit → Nat
  | byte _ _ => constants
  | load _ _ => if constants < Chunk.maxConstants then constants + 1 else constants
  | constant _ => constants + 1

/-- The lines of the bytes that calls write, one after the other. -/
def allLines : Nat → List Edit → List UInt32
  | _, [] => []
  | constants, e :: es => e.lines constants ++ allLines (e.count constants) es

end Edit

namespace Chunk

/-- Adding a constant to a chunk in place. A full pool is found before the chunk is changed. -/
def addInPlace (c : Chunk) (v : Value) (line : UInt32) : Except PoolFull Nat × Chunk :=
  if maxConstants ≤ c.constants.size then (.error ⟨line⟩, c)
  else (.ok c.constants.size, c.withConstant v)

/-- Adding a constant and writing its load in place, with the chunk that is left in either case. -/
def writeInPlace (c : Chunk) (v : Value) (line : UInt32) : Except PoolFull Nat × Chunk :=
  match c.addInPlace v line with
  | (.ok index, c) => (.ok index, c.writeAll (loadBytes index) line)
  | (.error e, c) => (.error e, c)

/-- What a call gives, and the chunk behind it: a load gives the index of its constant. -/
def edit (c : Chunk) : Edit → Except PoolFull (Option Nat) × Chunk
  | .byte b line => (.ok none, c.write b line)
  | .load v line => ((c.writeInPlace v line).1.map some, (c.writeInPlace v line).2)
  | .constant v => (.ok none, c.withConstant v)

/-- What calls give one after the other, and the chunk behind them. -/
def edits : Chunk → List Edit → List (Except PoolFull (Option Nat)) × Chunk
  | c, [] => ([], c)
  | c, e :: es => ((c.edit e).1 :: ((c.edit e).2.edits es).1, ((c.edit e).2.edits es).2)

theorem edit_load_of_room {c : Chunk} (room : c.constants.size < maxConstants) (v : Value)
    (line : UInt32) :
    c.edit (.load v line) = (.ok (some c.constants.size),
      (c.withConstant v).writeAll (loadBytes c.constants.size) line) := by
  rw [edit, writeInPlace, addInPlace, if_neg (Nat.not_le_of_lt room)]
  rfl

theorem writeInPlace_of_full {c : Chunk} (full : maxConstants ≤ c.constants.size) (v : Value)
    (line : UInt32) : c.writeInPlace v line = (.error ⟨line⟩, c) := by
  rw [writeInPlace, addInPlace, if_pos full]

theorem edit_load_of_full {c : Chunk} (full : maxConstants ≤ c.constants.size) (v : Value)
    (line : UInt32) : c.edit (.load v line) = (.error ⟨line⟩, c) := by
  rw [edit, writeInPlace_of_full full]
  rfl

theorem grows_edit (c : Chunk) (e : Edit) : c.Grows (c.edit e).2 := by
  cases e with
  | byte b line => exact c.grows_write b line
  | load v line =>
    by_cases room : c.constants.size < maxConstants
    · rw [edit_load_of_room room]
      exact (c.grows_withConstant v).trans (grows_writeAll _ _ _)
    · rw [edit_load_of_full (Nat.le_of_not_lt room)]
      exact .refl c
  | constant v => exact c.grows_withConstant v

/-- Calls leave alone what is there. -/
theorem grows_edits (c : Chunk) (es : List Edit) : c.Grows (c.edits es).2 := by
  induction es generalizing c with
  | nil => exact .refl c
  | cons e es ih => exact (c.grows_edit e).trans (ih _)

section
variable {P : Array LineRun → Prop} (step : ∀ (runs : Array LineRun) line,
  LineRun.covered runs.toList + 1 < 2 ^ 32 → P runs → P (LineRun.write runs line))
include step

theorem lines_writeAll {c : Chunk} (covered : c.Covered) (bs : List UInt8) (line : UInt32)
    (few : (c.writeAll bs line).size < 2 ^ 32) (start : P c.lines) :
    P (c.writeAll bs line).lines := by
  induction bs generalizing c with
  | nil => exact start
  | cons b bs ih =>
    have written : (c.write b line).size < 2 ^ 32 :=
      ((c.write b line).grows_writeAll bs line).size_le.trans_lt few
    refine ih ((c.grows_write b line).lines written covered).1 few (step _ _ ?_ start)
    rwa [covered, ← c.size_write b line]

/-- What writing a byte keeps of the runs, a call keeps. -/
theorem lines_edit {c : Chunk} (covered : c.Covered) (e : Edit)
    (few : (c.edit e).2.size < 2 ^ 32) (start : P c.lines) : P (c.edit e).2.lines := by
  cases e with
  | byte b line => exact lines_writeAll step covered [b] line few start
  | load v line =>
    by_cases room : c.constants.size < maxConstants
    · rw [edit_load_of_room room] at few ⊢
      exact lines_writeAll step (c := c.withConstant v) covered _ _ few start
    · rw [edit_load_of_full (Nat.le_of_not_lt room)]
      exact start
  | constant v => exact start

/-- What writing a byte keeps of the runs, any calls keep. -/
theorem lines_edits {c : Chunk} (covered : c.Covered) (es : List Edit)
    (few : (c.edits es).2.size < 2 ^ 32) (start : P c.lines) : P (c.edits es).2.lines := by
  induction es generalizing c with
  | nil => exact start
  | cons e es ih =>
    have one : (c.edit e).2.size < 2 ^ 32 := ((c.edit e).2.grows_edits es).size_le.trans_lt few
    exact ih ((c.grows_edit e).lines one covered).1 few (lines_edit step covered e one start)

end

theorem size_constants_edit (c : Chunk) (e : Edit) :
    (c.edit e).2.constants.size = e.count c.constants.size := by
  cases e with
  | byte b line => rfl
  | load v line =>
    by_cases room : c.constants.size < maxConstants
    · rw [edit_load_of_room room, constants_writeAll, Edit.count, if_pos room]
      simp [withConstant]
    · rw [edit_load_of_full (Nat.le_of_not_lt room), Edit.count, if_neg room]
  | constant v => simp [edit, withConstant, Edit.count]

/-- A call writes bytes of its line, and records the line for each of them. -/
theorem byteLines_edit {c : Chunk} (covered : c.Covered) (e : Edit)
    (few : (c.edit e).2.size < 2 ^ 32) :
    LineRun.byteLines (c.edit e).2.lines.toList =
      LineRun.byteLines c.lines.toList ++ e.lines c.constants.size := by
  cases e with
  | byte b line =>
    refine byteLines_writeAll (c := c) [b] line ?_
    rwa [covered, ← c.size_writeAll [b] line]
  | load v line =>
    by_cases room : c.constants.size < maxConstants
    · rw [edit_load_of_room room] at few ⊢
      rw [size_writeAll] at few
      rw [byteLines_writeAll (c := c.withConstant v) _ _ (covered ▸ few), length_loadBytes,
        Edit.lines, if_pos room, loadOpcode]
      split <;> rfl
    · rw [edit_load_of_full (Nat.le_of_not_lt room), Edit.lines, if_neg room, List.append_nil]
  | constant v => exact (List.append_nil _).symm

theorem byteLines_edits {c : Chunk} (covered : c.Covered) (es : List Edit)
    (few : (c.edits es).2.size < 2 ^ 32) :
    LineRun.byteLines (c.edits es).2.lines.toList =
      LineRun.byteLines c.lines.toList ++ Edit.allLines c.constants.size es := by
  induction es generalizing c with
  | nil => exact (List.append_nil _).symm
  | cons e es ih =>
    have one : (c.edit e).2.size < 2 ^ 32 := ((c.edit e).2.grows_edits es).size_le.trans_lt few
    rw [edits, ih ((c.grows_edit e).lines one covered).1 few, byteLines_edit covered e one,
      size_constants_edit, List.append_assoc, Edit.allLines]

/-! ## A run that wraps -/

/-- Bytes of one line behind a run of that line make it longer, modulo 2^32. -/
theorem lines_writeAll_of_run {c : Chunk} {line count : UInt32} (run : c.lines = #[⟨line, count⟩])
    (bs : List UInt8) :
    (c.writeAll bs line).lines = #[⟨line, count + UInt32.ofNat bs.length⟩] := by
  induction bs generalizing c count with
  | nil => simpa [writeAll] using run
  | cons b bs ih =>
    have one : (c.write b line).lines = #[⟨line, count + 1⟩] := by
      simp [write, LineRun.write, run]
    rw [writeAll, List.foldl_cons, ← writeAll, ih one, List.length_cons, UInt32.ofNat_add,
      UInt32.add_assoc, UInt32.add_comm 1]
    rfl

/-- A run cannot count to 2^32: so many bytes of one line leave a run of none, and no byte has a
line. -/
theorem lineAt?_eq_none_of_wrapped {bs : List UInt8} (wraps : bs.length = 2 ^ 32) (line : UInt32)
    (offset : Nat) : (empty.writeAll bs line).lineAt? offset = none := by
  match bs, wraps with
  | b :: bs, wraps =>
    have one : (empty.write b line).lines = #[⟨line, 1⟩] := rfl
    have lines := lines_writeAll_of_run one bs
    have count : (1 : UInt32) + UInt32.ofNat bs.length = 0 := by
      rw [List.length_cons] at wraps
      rw [← UInt32.toNat_inj, UInt32.toNat_add, UInt32.toNat_ofNat', UInt32.toNat_one,
        UInt32.toNat_zero]
      omega
    rw [count] at lines
    rw [writeAll, List.foldl_cons, ← writeAll, lineAt?, lines]
    simp [LineRun.lineAt?]

/-! ## Chunks -/

theorem isCoveredBy_iff {code : Array UInt8} {lines : Array LineRun} :
    isCoveredBy code lines = true ↔ (∀ r ∈ lines.toList, 0 < r.count) ∧
      (lines.toList.map fun r => r.count.toNat).sum = code.size := by
  rw [isCoveredBy, Bool.and_eq_true, Array.all_eq_true_iff_forall_mem, ← LineRun.covered_eq_sum,
    and_comm]
  simp [UInt32.pos_iff_ne_zero]

/-- A chunk is put together from its parts just if no run is empty and the runs cover the code. -/
theorem ofParts?_eq_some_iff {code : Array UInt8} {constants : Array Value}
    {lines : Array LineRun} {c : Chunk} :
    ofParts? code constants lines = some c ↔ c = ⟨code, constants, lines⟩ ∧
      (∀ r ∈ lines.toList, 0 < r.count) ∧
      (lines.toList.map fun r => r.count.toNat).sum = code.size := by
  rw [← isCoveredBy_iff, ofParts?]
  split
  · rename_i covers
    simp [covers, eq_comm]
  · rename_i covers
    simp [covers]

/-- Behind any calls on a new chunk, or on one put together from parts that were accepted, the runs
are the lines of all bytes: none is empty, they cover the code, and the line of a byte is the one it
was written with. If the chunk was new no neighbouring runs are of one line, and no other runs for
the same bytes are fewer. Parts are accepted just if no run is empty and the runs cover the code. -/
theorem lineTable_of_edits :
    (∀ (start : Chunk) (es : List Edit),
      (start = .empty ∨ ∃ code constants lines, ofParts? code constants lines = some start) →
      let c := (start.edits es).2
      let given := LineRun.byteLines start.lines.toList ++ Edit.allLines start.constants.size es
      c.size < 2 ^ 32 →
        (∀ r ∈ c.lines.toList, 0 < r.count) ∧
        (c.lines.toList.map fun r => r.count.toNat).sum = c.size ∧
        given.length = c.size ∧ (∀ i, c.lineAt? i = given[i]?) ∧
        (start = .empty → (c.lines.toList.IsChain fun r s => r.line ≠ s.line) ∧
          ∀ runs, LineRun.byteLines runs = given → c.lines.size ≤ runs.length)) ∧
    ∀ code constants lines, (ofParts? code constants lines).isSome ↔
      (∀ r ∈ lines.toList, 0 < r.count) ∧
        (lines.toList.map fun r => r.count.toNat).sum = code.size := by
  constructor
  · intro start es accepted c given few
    obtain ⟨pos, covered⟩ : (∀ r ∈ start.lines.toList, 0 < r.count) ∧ start.Covered := by
      rcases accepted with rfl | ⟨code, constants, lines, made⟩
      · exact ⟨List.forall_mem_nil _, rfl⟩
      · obtain ⟨rfl, pos, sum⟩ := ofParts?_eq_some_iff.1 made
        exact ⟨pos, (LineRun.covered_eq_sum _).trans sum⟩
    have lines : LineRun.byteLines c.lines.toList = given := byteLines_edits covered es few
    have covers : c.Covered := ((start.grows_edits es).lines few covered).1
    have pos : ∀ r ∈ c.lines.toList, 0 < r.count :=
      lines_edits (P := fun runs => ∀ r ∈ runs.toList, 0 < r.count)
        (fun _ line room => LineRun.pos_write line room) covered es few pos
    refine ⟨pos, (LineRun.covered_eq_sum _).symm.trans covers, ?_, fun i => ?_, fun new => ?_⟩
    · rw [← lines, LineRun.length_byteLines]
      exact covers
    · rw [lineAt?, LineRun.lineAt?_eq_getElem?, lines]
    · have apart : LineRun.Apart c.lines.toList :=
        lines_edits (P := fun runs => LineRun.Apart runs.toList)
          (fun _ line _ => LineRun.apart_write line) covered es few (new ▸ .nil)
      refine ⟨apart, fun runs same => ?_⟩
      rw [← Array.length_toList]
      exact LineRun.length_le_of_apart pos apart (same.trans lines.symm)
  · intro code constants lines
    rw [Option.isSome_iff_exists]
    constructor
    · intro made
      obtain ⟨c, made⟩ := made
      exact (ofParts?_eq_some_iff.1 made).2
    · intro fits
      exact ⟨_, ofParts?_eq_some_iff.2 ⟨rfl, fits⟩⟩

/-- Two runs of one line that were accepted stay apart, and what is written behind them makes the
second one longer; the same calls on a new chunk make one run of both. -/
theorem lineTable_of_edits_foreign :
    let es : List Edit := [.load (.integer 5) 7, .byte Opcode.finish.toByte 9]
    ∃ start, ofParts? #[2, 13] #[] #[⟨7, 1⟩, ⟨7, 1⟩] = some start ∧
      (start.edits es).2.lines = #[⟨7, 1⟩, ⟨7, 3⟩, ⟨9, 1⟩] ∧
      (∀ i, (start.edits es).2.lineAt? i = [7, 7, 7, 7, 9][i]?) ∧
      (empty.edits es).2.lines = #[⟨7, 2⟩, ⟨9, 1⟩] ∧
      ∀ runs, LineRun.byteLines runs = [7, 7, 9] → 2 ≤ runs.length := by
  intro es
  have made := Option.isSome_iff_exists.1
    ((lineTable_of_edits.2 #[2, 13] #[] #[⟨7, 1⟩, ⟨7, 1⟩]).2 (by decide))
  obtain ⟨start, made⟩ := made
  obtain ⟨rfl, -⟩ := ofParts?_eq_some_iff.1 made
  have foreign := lineTable_of_edits.1 _ es (.inr ⟨_, _, _, made⟩) (by decide)
  have new := lineTable_of_edits.1 .empty es (.inl rfl) (by decide)
  exact ⟨_, made, by decide, foreign.2.2.2.1, by decide, (new.2.2.2.2 rfl).2⟩

end Chunk

end Pseudocode
