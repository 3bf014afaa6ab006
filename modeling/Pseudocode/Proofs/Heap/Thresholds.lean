import Pseudocode.Proofs.Heap.Interning
import Pseudocode.Proofs.Heap.TableGrowth
/-!
# When the table of a heap grows

A heap deletes no handle but all of them, so its table has no marks, and holds as many handles as
there are different texts interned since the heap was cleared. It doubles when a new text comes and
three quarters of the slots are taken. So the capacity is always the least of the first one, twice
the first and so on in which the texts fit (`LeastFit`): texts that are interned again or were
joined only do not count.

* `LeastFit.succ_of_full`, `LeastFit.succ_of_room`: one more text;
* `Trim.insert`: one more handle in a table without marks;
* `Reachable.table_fits`: the table of a heap after any calls, as long as there are never more than
  2^32 strings at a time.
-/
namespace Pseudocode

/-! ## The least capacity -/

/-- Of `first`, twice `first`, four times `first` and so on, `capacity` is the least that has room
for `n` handles in three quarters of its slots. -/
def LeastFit (first n capacity : Nat) : Prop :=
  ∃ k, capacity = first * 2 ^ k ∧ 4 * n ≤ 3 * capacity ∧ ∀ j, 4 * n ≤ 3 * (first * 2 ^ j) → k ≤ j

section
variable {first n capacity : Nat}

theorem leastFit_zero (first : Nat) : LeastFit first 0 first :=
  ⟨0, by simp, Nat.zero_le _, fun j _ => Nat.zero_le j⟩

theorem LeastFit.succ_of_room (fit : LeastFit first n capacity)
    (room : 4 * (n + 1) ≤ 3 * capacity) : LeastFit first (n + 1) capacity := by
  obtain ⟨k, rfl, -, least⟩ := fit
  exact ⟨k, rfl, room, fun j fits => least j (by omega)⟩

theorem LeastFit.succ_of_full (fit : LeastFit first n capacity)
    (full : capacity * 3 ≤ n * 4) (large : 8 ≤ capacity) :
    LeastFit first (n + 1) (capacity * 2) := by
  obtain ⟨k, rfl, fits, least⟩ := fit
  refine ⟨k + 1, by rw [Nat.pow_succ, Nat.mul_assoc], by omega, fun j fits' => ?_⟩
  have before : k ≤ j := least j (by omega)
  have other : k ≠ j := by
    rintro rfl
    omega
  omega

end

namespace InternTable

/-! ## Tables without marks -/

/-- A table without marks and no larger than it has to be. -/
structure Trim (first : Nat) (t : InternTable) : Prop where
  unmarked : t.tombstones = 0
  least : LeastFit first t.size t.capacity

theorem trim_ofCapacity (capacity : Nat) : Trim (roundUp capacity) (ofCapacity capacity) := by
  refine ⟨rfl, ?_⟩
  rw [InternTable.capacity, ofCapacity, Array.size_replicate]
  exact leastFit_zero _

section
variable {t : InternTable} {first : Nat} {key : Handle}

theorem Valid.size_reserve (valid : t.Valid) : t.reserve.size = t.size := by
  unfold InternTable.reserve
  split
  · exact t.length_entries.trans valid.size.symm
  · rfl

theorem tombstones_reserve (unmarked : t.tombstones = 0) : t.reserve.tombstones = 0 := by
  unfold reserve
  split
  · rfl
  · exact unmarked

/-- A handle that is not held makes the table larger by one entry, and as little larger in slots as
the entries ask for. -/
theorem Trim.insert (trim : Trim first t) (valid : t.Valid) (absent : ∀ h, ¬ Holds t.slots key h)
    (hash : UInt32) :
    Trim first (t.insert key hash).2 ∧ (t.insert key hash).2.size = t.size + 1 := by
  obtain ⟨valid', room, same⟩ := valid.reserve
  have size := valid.size_reserve
  have marks := tombstones_reserve trim.unmarked
  obtain ⟨old, found, free, -⟩ := @probed_place _ key hash valid'.probed
    (fun h held => absent h ((same key h).1 held)) valid'.exists_empty
  have capacity := t.capacity_insert key hash
  have inserted := insert_of_free found free
  rw [size, marks] at inserted
  have more : (t.insert key hash).2.size = t.size + 1 := by rw [inserted]
  refine ⟨⟨by rw [inserted]; exact Nat.zero_sub _, ?_⟩, more⟩
  rw [more, capacity]
  unfold HasRoom at room
  rw [size, marks] at room
  rw [capacity_reserve] at room ⊢
  split
  · rename_i crowded
    simp only [isCrowded, decide_eq_true_iff, trim.unmarked] at crowded
    exact trim.least.succ_of_full crowded valid.length_entries_le.2
  · rename_i sparse
    rw [if_neg sparse] at room
    exact trim.least.succ_of_room room

end

end InternTable

/-! ## The heap -/

namespace History

/-- The texts interned since the heap was cleared. -/
def texts (past : History) : Finset String := (past.interned.map Prod.fst).toFinset

/-- The table is no larger than the texts ask for, and the capacity it started with is kept. -/
structure Fitting (capacity : Nat) (past : History) : Prop where
  trim : past.heap.interned.Trim (InternTable.roundUp capacity)
  count : past.heap.interned.size = past.texts.card
  configured : past.heap.tableCapacity = capacity

theorem fitting_start (capacity : Nat) : Fitting capacity (start capacity) :=
  ⟨InternTable.trim_ofCapacity capacity, rfl, rfl⟩

section
variable {past : History} {capacity : Nat}

theorem mem_texts {text : String} : text ∈ past.texts ↔ past.interned.lookup text ≠ none := by
  rw [texts, List.mem_toFinset, ne_eq, List.lookup_eq_none_iff]
  simp

theorem texts_given (text : String) (answer : Handle × Heap) :
    (past.given text answer).texts = insert text past.texts := by
  simp [texts, given]

theorem Fitting.intern (fitting : Fitting capacity past) (inv : past.Inv) {object : StringObject}
    (room : (past.heap.intern object).2.size ≤ UInt32.size) :
    Fitting capacity (past.given object.text (past.heap.intern object)) := by
  obtain ⟨trim, count, configured⟩ := fitting
  cases found : past.heap.findInterned object.text with
  | some r =>
    rw [Heap.intern_of_find found]
    have known : object.text ∈ past.texts := by
      rw [mem_texts, inv.findInterned.1 found]
      exact Option.some_ne_none r
    refine ⟨trim, ?_, configured⟩
    rw [texts_given, Finset.insert_eq_of_mem known]
    exact count
  | none =>
    rw [Heap.intern_of_find_none found] at room ⊢
    have new : object.text ∉ past.texts := by
      rw [mem_texts, not_not, Option.eq_none_iff_forall_ne_some]
      intro r first
      rw [inv.findInterned.2 first] at found
      cases found
    -- the handle is that of no string so far, so it is not in the table
    have absent (h : UInt32) :
        ¬ InternTable.Holds past.heap.interned.slots (past.heap.push object).1 h := by
      intro held
      obtain ⟨s, live, -⟩ := inv.live held
      rw [Heap.push, Heap.get?_ofNat_size (Heap.size_lt_of_push room)] at live
      cases live
    obtain ⟨trim', size⟩ := trim.insert inv.table absent object.hash
    refine ⟨trim', ?_, configured⟩
    rw [texts_given, Finset.card_insert_of_notMem new, ← count]
    exact size

theorem Fitting.after (fitting : Fitting capacity past) (inv : past.Inv) (call : HeapCall)
    (room : (past.after call).heap.size ≤ UInt32.size) : Fitting capacity (past.after call) := by
  rcases past.after_cases call with ⟨-, made⟩ | ⟨text, owned, made⟩ | ⟨text, made⟩ | made <;>
    rw [made] at room ⊢
  · obtain rfl := fitting.configured
    exact fitting_start past.heap.tableCapacity
  · exact @Fitting.intern past capacity fitting inv (.ofText text owned) room
  · exact ⟨fitting.trim, fitting.count, fitting.configured⟩
  · exact fitting

theorem size_after_le (past : History) (call : HeapCall) :
    (past.after call).heap.size ≤ past.heap.size + 1 := by
  rcases past.after_cases call with ⟨-, made⟩ | ⟨text, owned, made⟩ | ⟨text, made⟩ | made <;>
    rw [made]
  · exact Nat.zero_le _
  · exact past.heap.size_intern_le _
  · exact Nat.le_of_eq (past.heap.size_push _)
  · exact Nat.le_succ _

end

end History

theorem Reachable.fitting {capacity : Nat} {past : History} (reachable : Reachable capacity past) :
    past.Fitting capacity := by
  induction reachable with
  | start => exact History.fitting_start capacity
  | after call before room ih => exact ih.after before.inv call room

/-- So many calls at least do not make a heap too large. -/
theorem reachable_of_length (capacity : Nat) (calls : List HeapCall)
    (few : calls.length ≤ UInt32.size) :
    Reachable capacity (calls.foldl History.after (.start capacity)) := by
  have made : Reachable capacity (calls.foldl History.after (.start capacity)) ∧
      (calls.foldl History.after (.start capacity)).heap.size ≤ calls.length := by
    induction calls using List.reverseRecOn with
    | nil => exact ⟨.start, Nat.zero_le _⟩
    | append_singleton calls call ih =>
      rw [List.length_append, List.length_singleton] at few ⊢
      obtain ⟨reachable, size⟩ := ih (by omega)
      have step := (calls.foldl History.after (.start capacity)).size_after_le call
      rw [List.foldl_append, List.foldl_cons, List.foldl_nil]
      exact ⟨.after call reachable (by omega), by omega⟩
  exact made.1

/-- **Thresholds.** The capacity asked for is rounded up to a power of two from eight on. After any
calls that never leave more than 2^32 strings on the heap at a time, the table has no marks, and its
capacity is the least of the rounded one, twice that and so on that has room for the different texts
interned since the heap was cleared in three quarters of the slots. Clearing goes back to the
rounded one. -/
theorem Reachable.table_fits {capacity : Nat} {past : History}
    (reachable : Reachable capacity past) :
    (∃ j, 3 ≤ j ∧ InternTable.roundUp capacity = 2 ^ j) ∧
      max capacity 8 ≤ InternTable.roundUp capacity ∧
      InternTable.roundUp capacity < 2 * max capacity 8 ∧
      past.heap.interned.tombstones = 0 ∧
      past.heap.interned.size = past.texts.card ∧
      LeastFit (InternTable.roundUp capacity) past.texts.card past.heap.interned.capacity ∧
      (past.after .clear).heap.interned.capacity = InternTable.roundUp capacity ∧
      (past.after .clear).heap.interned.tombstones = 0 := by
  obtain ⟨trim, count, configured⟩ := reachable.fitting
  have cleared : (past.after .clear).heap.interned = .ofCapacity capacity := by
    rw [← configured]
    rfl
  have size : (InternTable.ofCapacity capacity).capacity = InternTable.roundUp capacity := by
    rw [InternTable.capacity, InternTable.ofCapacity, Array.size_replicate]
  refine ⟨?_, InternTable.le_roundUp capacity, InternTable.roundUp_lt capacity, trim.unmarked,
    count, ?_, ?_, ?_⟩
  · rw [← size]
    exact (InternTable.valid_ofCapacity capacity).1.power
  · rw [← count]
    exact trim.least
  · rw [cleared, size]
  · rw [cleared]
    rfl

/-- Six texts fit in eight slots, whatever is interned again or joined; the seventh does not. -/
theorem Reachable.table_fits_seven :
    let six : List HeapCall := [.copyString "a", .copyString "b", .refString "c d" 0 1,
      .copyString "d", .copyString "e", .copyString "", .copyString "a", .concat ⟨0⟩ ⟨1⟩]
    let past := six.foldl History.after (.start 5)
    let next := past.after (.copyString "ab")
    (past.heap.interned.capacity = 8 ∧ LeastFit 8 6 past.heap.interned.capacity) ∧
      next.heap.interned.capacity = 16 ∧ LeastFit 8 7 next.heap.interned.capacity := by
  intro six past next
  have reachable : Reachable 5 past := reachable_of_length 5 six (by decide)
  have reachable' : Reachable 5 next := .after _ reachable (by decide +kernel)
  obtain ⟨-, -, -, -, -, fit, -⟩ := reachable.table_fits
  obtain ⟨-, -, -, -, -, fit', -⟩ := reachable'.table_fits
  have rounded : InternTable.roundUp 5 = 8 := by decide
  have texts : past.texts.card = 6 := by decide +kernel
  have texts' : next.texts.card = 7 := by decide +kernel
  rw [rounded, texts] at fit
  rw [rounded, texts'] at fit'
  exact ⟨⟨by decide +kernel, fit⟩, by decide +kernel, fit'⟩

end Pseudocode
