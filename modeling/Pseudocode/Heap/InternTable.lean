import Pseudocode.Heap.Hash
/-!
# The table of interned strings

A set of handles with open addressing. Each handle is stored under a hash, at the first free slot
from the slot that the hash names, the last slot followed by the first. A deleted handle leaves a
mark, so that a search does not stop in front of what was stored behind it; the marks go when the
table grows.

The table grows before an insertion if three quarters of its slots are taken or marked, so a slot is
always left that ends a search.

* `le_roundUp`, `roundUp_lt`: the number of slots of a new table;
* `entries_ofCapacity`: a new table holds nothing;
* `capacity_grow`: growing doubles the capacity.
-/
namespace Pseudocode

/-- The name of a string on the heap: its place in the list of objects. -/
structure Handle where
  index : UInt32
  deriving DecidableEq, Repr

/-- The handle of the object at a place; places are counted with 32 bits. -/
def Handle.ofNat (n : Nat) : Handle := ⟨UInt32.ofNat n⟩

inductive Slot where
  /-- Nothing was ever stored here. -/
  | empty
  /-- What was stored here was deleted. -/
  | tombstone
  | occupied (key : Handle) (hash : UInt32)
  deriving DecidableEq, Repr

def Slot.entry? : Slot → Option (Handle × UInt32)
  | occupied key hash => some (key, hash)
  | empty | tombstone => none

/-- A set of handles. -/
structure InternTable where
  slots : Array Slot
  size : Nat
  tombstones : Nat
  deriving DecidableEq, Repr

namespace InternTable

def capacity (t : InternTable) : Nat := t.slots.size

/-- The least power of two that is not below the given number, nor below eight. -/
def roundUp (least : Nat) : Nat := Nat.pow 2 (Nat.log2 (max least 8 - 1) + 1)

/-- An empty table with at least the given number of slots: a power of two, not below eight
(`InternTable::with_capacity`). -/
def ofCapacity (least : Nat) : InternTable := ⟨Array.replicate (roundUp least) .empty, 0, 0⟩

def new : InternTable := ofCapacity 8

/-- The handles with their hashes, in the order of the slots (`InternTable::iter`). -/
def entries (t : InternTable) : List (Handle × UInt32) := t.slots.toList.filterMap Slot.entry?

/-- The slot at which the search for a hash starts (`start_index`). -/
def home (slots : Array Slot) (hash : UInt32) : Nat := hash.toNat % slots.size

def after (slots : Array Slot) (i : Nat) : Nat := (i + 1) % slots.size

/-- Where a handle is or would be stored, searching from slot `i` for so many turns: its own slot,
or the first mark passed, or the empty slot that ends the search. -/
def seek (slots : Array Slot) (key : Handle) : Nat → Nat → Option Nat → Nat
  | 0, i, mark => mark.getD i
  | turns + 1, i, mark =>
    match slots[i]? with
    | none | some .empty => mark.getD i
    | some .tombstone => seek slots key turns (after slots i) (mark <|> some i)
    | some (.occupied k _) =>
      if k = key then i else seek slots key turns (after slots i) mark

/-- The slot at which a handle is or would be stored (`find_slot`). -/
def slotOf (slots : Array Slot) (key : Handle) (hash : UInt32) : Nat :=
  seek slots key slots.size (home slots hash) none

/-- Is the handle in the slot found for it? -/
def isStored (t : InternTable) (key : Handle) (hash : UInt32) : Bool :=
  match t.slots[slotOf t.slots key hash]? with
  | some (.occupied _ _) => true
  | _ => false

/-- The slots with an entry written to its place. -/
def place (slots : Array Slot) (entry : Handle × UInt32) : Array Slot :=
  slots.setIfInBounds (slotOf slots entry.1 entry.2) (.occupied entry.1 entry.2)

/-- Are three quarters of the slots taken or marked (`needs_growth`)? -/
def isCrowded (t : InternTable) : Bool := t.capacity * 3 ≤ (t.size + t.tombstones) * 4

/-- The same handles in twice as many slots, without marks (`InternTable::grow`). -/
def grow (t : InternTable) : InternTable :=
  ⟨t.entries.foldl place (Array.replicate (t.capacity * 2) .empty), t.entries.length, 0⟩

/-- The table with room for one more handle. -/
def reserve (t : InternTable) : InternTable := if t.isCrowded then t.grow else t

/-- Adds a handle, and tells whether it was absent (`InternTable::insert`). -/
def insert (t : InternTable) (key : Handle) (hash : UInt32) : Bool × InternTable :=
  let t := t.reserve
  let i := slotOf t.slots key hash
  match t.slots[i]? with
  | some (.occupied _ _) => (false, t)
  | some .tombstone =>
    (true, ⟨t.slots.setIfInBounds i (.occupied key hash), t.size + 1, t.tombstones - 1⟩)
  | _ => (true, ⟨t.slots.setIfInBounds i (.occupied key hash), t.size + 1, t.tombstones⟩)

/-- Is the handle in the table (`InternTable::contains`)? -/
def contains (t : InternTable) (key : Handle) (hash : UInt32) : Bool :=
  t.size != 0 && t.isStored key hash

/-- Deletes a handle, and tells whether it was present (`InternTable::delete`). -/
def delete (t : InternTable) (key : Handle) (hash : UInt32) : Bool × InternTable :=
  if t.contains key hash then
    (true, ⟨t.slots.setIfInBounds (slotOf t.slots key hash) .tombstone, t.size - 1,
      t.tombstones + 1⟩)
  else (false, t)

/-- Adds the handles of another table, in the order of its slots (`add_all`). -/
def addAll (t source : InternTable) : InternTable :=
  source.entries.foldl (fun t entry => (t.insert entry.1 entry.2).2) t

/-- The handle stored under a hash whose text is wanted, searching from slot `i` for so many turns.
Texts may be compared as strings or as bytes. -/
def seekText {α : Type} [DecidableEq α] (slots : Array Slot) (textOf : Handle → Option α) (text : α)
    (hash : UInt32) : Nat → Nat → Option Handle
  | 0, _ => none
  | turns + 1, i =>
    match slots[i]? with
    | none | some .empty => none
    | some .tombstone => seekText slots textOf text hash turns (after slots i)
    | some (.occupied k h) =>
      if h = hash ∧ textOf k = some text then some k
      else seekText slots textOf text hash turns (after slots i)

/-- The handle with the given text and hash, given the texts of the handles
(`InternTable::find_interned`). -/
def find? {α : Type} [DecidableEq α] (t : InternTable) (textOf : Handle → Option α) (text : α)
    (hash : UInt32) : Option Handle :=
  if t.size = 0 then none
  else seekText t.slots textOf text hash t.slots.size (home t.slots hash)

/-- A new table has as many slots as asked for, and eight at least. -/
theorem le_roundUp (least : Nat) : max least 8 ≤ roundUp least := by
  have above : max least 8 - 1 < roundUp least := Nat.lt_log2_self
  omega

/-- No smaller power of two would do. -/
theorem roundUp_lt (least : Nat) : roundUp least < 2 * max least 8 := by
  have below : Nat.pow 2 (max least 8 - 1).log2 ≤ max least 8 - 1 := Nat.log2_self_le (by omega)
  rw [roundUp, Nat.pow, Nat.mul_eq]
  omega

theorem entries_ofCapacity (least : Nat) : (ofCapacity least).entries = [] := by
  simp [entries, ofCapacity, Slot.entry?, List.filterMap_replicate]

theorem size_place (slots : Array Slot) (entry : Handle × UInt32) :
    (place slots entry).size = slots.size := by
  simp [place]

theorem size_foldl_place : ∀ (es : List (Handle × UInt32)) (slots : Array Slot),
    (es.foldl place slots).size = slots.size
  | [], _ => rfl
  | e :: es, slots => by rw [List.foldl_cons, size_foldl_place es, size_place]

theorem capacity_grow (t : InternTable) : t.grow.capacity = t.capacity * 2 := by
  simp [grow, capacity, size_foldl_place]

end InternTable

end Pseudocode
