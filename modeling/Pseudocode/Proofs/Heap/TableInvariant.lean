import Mathlib.Algebra.Group.Nat.Defs
import Pseudocode.Proofs.Heap.Probing
/-!
# The invariant of the table

Every handle is in one slot, and no slot between the home of its hash and its own is empty, so a
search for it does not stop short of it (`Probed`). The counts are exact, and a quarter of the slots
at least is empty, so a search ends (`Valid`). Both hold of a new table and are kept by every
operation, and an operation does to the handles held what it says.

* `Sought.eq_of_holds`, `Sought.free_of_not_holds`: where the search for a handle leads;
* `Valid.insert`, `Valid.delete`, `Valid.contains`, `Valid.find?_eq_none`: the operations.
-/
namespace Pseudocode

namespace Slot

def isOccupied : Slot → Bool
  | occupied _ _ => true
  | empty | tombstone => false

def isTombstone : Slot → Bool
  | tombstone => true
  | empty | occupied _ _ => false

end Slot

namespace InternTable

/-- Every handle is in one slot, and a search for it gets there. -/
structure Probed (slots : Array Slot) : Prop where
  unique : ∀ {i j : Nat} {key : Handle} {h h' : UInt32}, slots[i]? = some (.occupied key h) →
    slots[j]? = some (.occupied key h') → i = j
  chained : ∀ {i : Nat} {key : Handle} {h : UInt32}, slots[i]? = some (.occupied key h) →
    ∃ d < slots.size, spot slots h d = i ∧ ∀ e < d, slots[spot slots h e]? ≠ some .empty

/-- The capacity is a power of two from eight on, the counts are exact, no more than three quarters
of the slots are occupied or marked, and every handle is found. -/
structure Valid (t : InternTable) : Prop where
  power : ∃ k, 3 ≤ k ∧ t.capacity = 2 ^ k
  size : t.size = t.slots.countP Slot.isOccupied
  tombstones : t.tombstones = t.slots.countP Slot.isTombstone
  load : 4 * (t.size + t.tombstones) ≤ 3 * t.capacity
  probed : Probed t.slots

/-! ## Counting slots -/

/-- Writing a slot changes a count by the old and the new slot. -/
theorem countP_write {slots : Array Slot} {i : Nat} {old : Slot} (found : slots[i]? = some old)
    (p : Slot → Bool) (new : Slot) :
    (slots.setIfInBounds i new).countP p + (if p old then 1 else 0) =
      slots.countP p + (if p new then 1 else 0) := by
  obtain ⟨inside, rfl⟩ := Array.getElem?_eq_some_iff.1 found
  have counted := Array.boole_getElem_le_countP (p := p) inside
  rw [Array.setIfInBounds_def, dif_pos inside, Array.countP_set inside]
  omega

theorem length_le_countP (l : List Slot) :
    l.length ≤ l.countP Slot.isOccupied + l.countP Slot.isTombstone + l.countP (· == .empty) := by
  induction l with
  | nil => exact Nat.le_refl _
  | cons s l ih =>
    simp only [List.length_cons, List.countP_cons]
    cases s <;> simp [Slot.isOccupied, Slot.isTombstone] <;> omega

/-- Where not all slots are occupied or marked one is empty. -/
theorem exists_empty {slots : Array Slot}
    (room : slots.countP Slot.isOccupied + slots.countP Slot.isTombstone < slots.size) :
    ∃ i : Nat, slots[i]? = some .empty := by
  have whole := length_le_countP slots.toList
  rw [Array.length_toList, Array.countP_toList, Array.countP_toList] at whole
  have some_empty : 0 < slots.toList.countP (· == .empty) := by omega
  obtain ⟨s, inside, empty⟩ := List.countP_pos_iff.1 some_empty
  obtain rfl := eq_of_beq empty
  obtain ⟨i, found⟩ := List.mem_iff_getElem?.1 inside
  exact ⟨i, Array.getElem?_toList ▸ found⟩

theorem getElem?_write_eq_some {slots : Array Slot} {i : Nat} {old new : Slot}
    (found : slots[i]? = some old) {j : Nat} {s : Slot} :
    (slots.setIfInBounds i new)[j]? = some s ↔
      (j = i ∧ s = new) ∨ (j ≠ i ∧ slots[j]? = some s) := by
  have inside := (Array.getElem?_eq_some_iff.1 found).1
  rw [Array.getElem?_setIfInBounds, if_pos inside]
  by_cases same : i = j
  · subst same
    simp [eq_comm]
  · simp [same, Ne.symm same]

theorem spot_write (slots : Array Slot) (i : Nat) (s : Slot) (hash : UInt32) (d : Nat) :
    spot (slots.setIfInBounds i s) hash d = spot slots hash d := by
  rw [spot, home, Array.size_setIfInBounds]
  rfl

/-! ## Where a search leads -/

section
variable {slots : Array Slot} {key : Handle} {hash : UInt32}

/-- The search for a handle that is held leads to its slot. -/
theorem Sought.eq_of_holds {i j : Nat} (sought : Sought slots key hash j) (probed : Probed slots)
    (found : slots[i]? = some (.occupied key hash)) : j = i := by
  cases sought with
  | held _ here => exact probed.unique here found
  | @free d m clear last _ _ =>
    -- the handle's slot is neither before nor behind the empty one that ended the search
    obtain ⟨c, -, rfl, unbroken⟩ := probed.chained found
    have different : c ≠ d := by
      intro same
      subst same
      rw [found] at last
      cases last
    rcases Nat.lt_or_gt_of_ne different with before | behind
    · exact absurd found ((clear c before).2 hash)
    · exact absurd last (unbroken d behind)

/-- The search for a handle that is not held leads to a slot that is free, with no empty slot before
it. -/
theorem Sought.free_of_not_holds {j : Nat} (sought : Sought slots key hash j)
    (absent : ∀ h, ¬ Holds slots key h) :
    (slots[j]? = some .tombstone ∨ slots[j]? = some .empty) ∧
      ∃ d < slots.size, spot slots hash d = j ∧
        ∀ e < d, slots[spot slots hash e]? ≠ some .empty := by
  cases sought with
  | held _ here => exact (absent _ ⟨_, here⟩).elim
  | @free d m clear last before free =>
    have near : d < slots.size := by
      have inside := (Array.getElem?_eq_some_iff.1 last).1
      obtain ⟨c, small, same⟩ := exists_spot slots hash inside
      refine Nat.lt_of_not_le fun far => ?_
      have passed := (clear c (Nat.lt_of_lt_of_le small far)).1
      rw [same] at passed
      exact passed last
    refine ⟨?_, m, Nat.lt_of_le_of_lt before near, rfl, fun e less =>
      (clear e (Nat.lt_of_lt_of_le less before)).1⟩
    rcases free with mark | rfl
    · exact .inl mark
    · exact .inr last

theorem sought_slotOf (key : Handle) (hash : UInt32) (room : ∃ i : Nat, slots[i]? = some .empty) :
    Sought slots key hash (slotOf slots key hash) := by
  rw [slotOf, ← spot_zero]
  exact sought_seek (fun e before => absurd before (Nat.not_lt_zero e)) (endsWithin_of_empty room)
    nofun

/-! ## Writing slots -/

/-- A handle is written to the free slot where the search for it led. -/
theorem Probed.occupy {i : Nat} {old : Slot} (probed : Probed slots)
    (absent : ∀ h, ¬ Holds slots key h) (found : slots[i]? = some old)
    (near : ∃ d < slots.size, spot slots hash d = i ∧
      ∀ e < d, slots[spot slots hash e]? ≠ some .empty) :
    Probed (slots.setIfInBounds i (.occupied key hash)) := by
  have unmoved {j : Nat} (more : slots[j]? ≠ some .empty) :
      (slots.setIfInBounds i (.occupied key hash))[j]? ≠ some .empty := by
    intro empty
    rcases (getElem?_write_eq_some found).1 empty with ⟨-, new⟩ | ⟨-, old⟩
    · cases new
    · exact more old
  constructor
  · intro a b k h h' first second
    rcases (getElem?_write_eq_some found).1 first with ⟨rfl, new⟩ | ⟨-, old⟩ <;>
      rcases (getElem?_write_eq_some found).1 second with ⟨rfl, new'⟩ | ⟨-, old'⟩
    · rfl
    · cases new
      exact (absent h' ⟨b, old'⟩).elim
    · cases new'
      exact (absent h ⟨a, old⟩).elim
    · exact probed.unique old old'
  · intro a k h stored
    have size : (slots.setIfInBounds i (.occupied key hash)).size = slots.size :=
      Array.size_setIfInBounds
    obtain ⟨d, small, here, unbroken⟩ : ∃ d < slots.size, spot slots h d = a ∧
        ∀ e < d, slots[spot slots h e]? ≠ some .empty := by
      rcases (getElem?_write_eq_some found).1 stored with ⟨rfl, new⟩ | ⟨-, old⟩
      · cases new
        exact near
      · exact probed.chained old
    refine ⟨d, by omega, by rw [spot_write, here], fun e before => ?_⟩
    rw [spot_write]
    exact unmoved (unbroken e before)

theorem Probed.erase {i : Nat} {old : Slot} (probed : Probed slots) (found : slots[i]? = some old) :
    Probed (slots.setIfInBounds i .tombstone) := by
  constructor
  · intro a b k h h' first second
    rcases (getElem?_write_eq_some found).1 first with ⟨-, new⟩ | ⟨-, first⟩
    · cases new
    rcases (getElem?_write_eq_some found).1 second with ⟨-, new⟩ | ⟨-, second⟩
    · cases new
    exact probed.unique first second
  · intro a k h stored
    rcases (getElem?_write_eq_some found).1 stored with ⟨-, new⟩ | ⟨-, old⟩
    · cases new
    -- a mark is no empty slot, so no way to a handle is cut
    obtain ⟨d, small, here, unbroken⟩ := probed.chained old
    refine ⟨d, by rw [Array.size_setIfInBounds]; exact small, by rw [spot_write, here], ?_⟩
    intro e before empty
    rw [spot_write] at empty
    rcases (getElem?_write_eq_some found).1 empty with ⟨-, new⟩ | ⟨-, old⟩
    · cases new
    · exact unbroken e before old

theorem holds_occupy {i : Nat} {old : Slot} (found : slots[i]? = some old)
    (free : old.isOccupied = false) {k : Handle} {h : UInt32} :
    Holds (slots.setIfInBounds i (.occupied key hash)) k h ↔
      Holds slots k h ∨ (k = key ∧ h = hash) := by
  constructor
  · intro given
    obtain ⟨j, stored⟩ := given
    rcases (getElem?_write_eq_some found).1 stored with ⟨-, new⟩ | ⟨-, old⟩
    · cases new
      exact .inr ⟨rfl, rfl⟩
    · exact .inl ⟨j, old⟩
  · intro either
    rcases either with ⟨j, stored⟩ | ⟨rfl, rfl⟩
    · refine ⟨j, (getElem?_write_eq_some found).2 (.inr ⟨?_, stored⟩)⟩
      intro same
      subst same
      rw [found] at stored
      cases stored
      cases free
    · exact ⟨i, (getElem?_write_eq_some found).2 (.inl ⟨rfl, rfl⟩)⟩

theorem holds_erase {i : Nat} (probed : Probed slots)
    (found : slots[i]? = some (.occupied key hash)) {k : Handle} {h : UInt32} :
    Holds (slots.setIfInBounds i .tombstone) k h ↔ Holds slots k h ∧ k ≠ key := by
  constructor
  · intro given
    obtain ⟨j, stored⟩ := given
    rcases (getElem?_write_eq_some found).1 stored with ⟨-, new⟩ | ⟨other, old⟩
    · cases new
    · refine ⟨⟨j, old⟩, ?_⟩
      intro same
      subst same
      exact other (probed.unique old found)
  · intro given
    obtain ⟨⟨j, stored⟩, other⟩ := given
    refine ⟨j, (getElem?_write_eq_some found).2 (.inr ⟨?_, stored⟩)⟩
    intro same
    subst same
    rw [found] at stored
    cases stored
    exact other rfl

end

/-- A handle that is not held is written to a mark or to an empty slot. -/
theorem probed_place {slots : Array Slot} {key : Handle} {hash : UInt32} (probed : Probed slots)
    (absent : ∀ h, ¬ Holds slots key h) (room : ∃ i : Nat, slots[i]? = some .empty) :
    ∃ old, slots[slotOf slots key hash]? = some old ∧ old.isOccupied = false ∧
      Probed (place slots (key, hash)) ∧
      (place slots (key, hash)).countP Slot.isOccupied = slots.countP Slot.isOccupied + 1 ∧
      (place slots (key, hash)).countP Slot.isTombstone + (if old.isTombstone then 1 else 0) =
        slots.countP Slot.isTombstone ∧
      ∀ k h, Holds (place slots (key, hash)) k h ↔ Holds slots k h ∨ (k = key ∧ h = hash) := by
  obtain ⟨free, near⟩ := (sought_slotOf key hash room).free_of_not_holds absent
  obtain ⟨old, found, unoccupied⟩ : ∃ old, slots[slotOf slots key hash]? = some old ∧
      old.isOccupied = false := by
    rcases free with mark | empty
    · exact ⟨_, mark, rfl⟩
    · exact ⟨_, empty, rfl⟩
  have occupied := countP_write found Slot.isOccupied (.occupied key hash)
  have marked := countP_write found Slot.isTombstone (.occupied key hash)
  rw [unoccupied] at occupied
  exact ⟨old, found, unoccupied, probed.occupy absent found near, occupied, marked,
    fun k h => holds_occupy found unoccupied⟩

/-! ## Entries -/

theorem entry?_eq_some {s : Slot} {key : Handle} {hash : UInt32} :
    s.entry? = some (key, hash) ↔ s = .occupied key hash := by
  cases s <;> simp [Slot.entry?]

theorem mem_entries {t : InternTable} {key : Handle} {hash : UInt32} :
    (key, hash) ∈ t.entries ↔ Holds t.slots key hash := by
  rw [entries, List.mem_filterMap]
  constructor
  · intro given
    obtain ⟨s, inside, entry⟩ := given
    rw [entry?_eq_some.1 entry] at inside
    obtain ⟨i, found⟩ := List.mem_iff_getElem?.1 inside
    exact ⟨i, Array.getElem?_toList ▸ found⟩
  · intro given
    obtain ⟨i, found⟩ := given
    exact ⟨_, Array.mem_toList_iff.2 (Array.mem_of_getElem? found), rfl⟩

theorem length_entries (t : InternTable) : t.entries.length = t.slots.countP Slot.isOccupied := by
  rw [entries, List.length_filterMap_eq_countP, ← Array.countP_toList]
  congr
  funext s
  cases s <;> rfl

theorem nodup_entries {t : InternTable} (probed : Probed t.slots) :
    (t.entries.map Prod.fst).Nodup := by
  rw [List.Nodup, List.pairwise_map, entries, List.pairwise_filterMap, List.pairwise_iff_getElem]
  intro i j small small' before given first given' second same
  obtain ⟨k, h⟩ := given
  obtain ⟨k', h'⟩ := given'
  have found := List.getElem?_eq_getElem small
  have found' := List.getElem?_eq_getElem small'
  rw [entry?_eq_some.1 first, Array.getElem?_toList] at found
  rw [entry?_eq_some.1 second, Array.getElem?_toList, ← show k = k' from same] at found'
  exact Nat.ne_of_lt before (probed.unique found found')

/-! ## Growing -/

theorem getElem?_replicate_ne {n i : Nat} {key : Handle} {hash : UInt32} :
    (Array.replicate n Slot.empty)[i]? ≠ some (.occupied key hash) := by
  rw [Array.getElem?_replicate]
  split <;> exact nofun

theorem not_holds_replicate {n : Nat} {key : Handle} {hash : UInt32} :
    ¬ Holds (Array.replicate n .empty) key hash := by
  intro given
  obtain ⟨i, held⟩ := given
  exact getElem?_replicate_ne held

theorem countP_replicate_empty {p : Slot → Bool} (free : p .empty = false) (n : Nat) :
    (Array.replicate n Slot.empty).countP p = 0 := by
  simp [Array.countP_replicate, free]

theorem probed_replicate (n : Nat) : Probed (Array.replicate n .empty) where
  unique first := absurd first getElem?_replicate_ne
  chained stored := absurd stored getElem?_replicate_ne

/-- Writing entries to slots without marks, by induction on the entries. -/
theorem probed_foldl_place : ∀ {es : List (Handle × UInt32)} {slots : Array Slot}, Probed slots →
    slots.countP Slot.isTombstone = 0 →
    slots.countP Slot.isOccupied + es.length < slots.size → (es.map Prod.fst).Nodup →
    (∀ e ∈ es, ∀ h, ¬ Holds slots e.1 h) →
    Probed (es.foldl place slots) ∧ (es.foldl place slots).countP Slot.isTombstone = 0 ∧
      (es.foldl place slots).countP Slot.isOccupied =
        slots.countP Slot.isOccupied + es.length ∧
      ∀ k h, Holds (es.foldl place slots) k h ↔ Holds slots k h ∨ (k, h) ∈ es
  | [], slots, probed, unmarked, _, _, _ => by
    refine ⟨probed, unmarked, rfl, fun k h => ?_⟩
    simp
  | (key, hash) :: es, slots, probed, unmarked, room, distinct, absent => by
    rw [List.length_cons] at room
    obtain ⟨new, distinct⟩ := List.nodup_cons.1 distinct
    obtain ⟨old, -, -, probed', occupied, marked, holds⟩ := @probed_place slots key hash
      probed (absent _ (List.mem_cons_self ..)) (exists_empty (by omega))
    -- the handles still to come are other ones, so each is new again
    have absent' : ∀ e ∈ es, ∀ h, ¬ Holds (place slots (key, hash)) e.1 h := by
      intro e inside h held
      rcases (holds _ _).1 held with before | ⟨same, -⟩
      · exact absent e (List.mem_cons_of_mem _ inside) h before
      · exact new (List.mem_map.2 ⟨e, inside, same⟩)
    obtain ⟨probed'', unmarked', occupied', holds'⟩ := @probed_foldl_place es _ probed'
      (by omega) (by rw [size_place, occupied]; omega) distinct absent'
    refine ⟨probed'', unmarked', ?_, fun k h => ?_⟩
    · rw [List.foldl_cons, occupied', occupied, List.length_cons]
      omega
    · rw [List.foldl_cons, holds', holds, List.mem_cons, or_assoc, Prod.mk.injEq]

/-- The table has room for one more handle. -/
def HasRoom (t : InternTable) : Prop := 4 * (t.size + t.tombstones + 1) ≤ 3 * t.capacity

theorem Valid.capacity_eq {t : InternTable} (valid : t.Valid) :
    ∃ m, 0 < m ∧ t.capacity = 8 * m := by
  obtain ⟨k, large, power⟩ := valid.power
  refine ⟨2 ^ (k - 3), Nat.two_pow_pos _, ?_⟩
  rw [power, show 8 = 2 ^ 3 from rfl, ← Nat.pow_add, Nat.add_sub_cancel' large]

theorem Valid.exists_empty {t : InternTable} (valid : t.Valid) :
    ∃ i : Nat, t.slots[i]? = some .empty := by
  obtain ⟨m, pos, capacity⟩ := valid.capacity_eq
  have load := valid.load
  have size := valid.size
  have tombstones := valid.tombstones
  refine InternTable.exists_empty ?_
  rw [capacity] at load
  rw [InternTable.capacity] at capacity
  omega

theorem Valid.length_entries_le {t : InternTable} (valid : t.Valid) :
    4 * t.entries.length ≤ 3 * t.capacity ∧ 8 ≤ t.capacity := by
  obtain ⟨m, pos, capacity⟩ := valid.capacity_eq
  have load := valid.load
  have size := valid.size.trans t.length_entries.symm
  omega

/-- Some of the entries written to twice as many slots. -/
theorem Valid.rehash {t : InternTable} (valid : t.Valid) {es : List (Handle × UInt32)}
    (distinct : (es.map Prod.fst).Nodup) (fewer : es.length ≤ t.entries.length)
    {slots : Array Slot}
    (written : es.foldl place (Array.replicate (t.capacity * 2) .empty) = slots) :
    Probed slots ∧ slots.countP Slot.isTombstone = 0 ∧ slots.countP Slot.isOccupied = es.length ∧
      ∀ k h, Holds slots k h ↔ (k, h) ∈ es := by
  obtain ⟨sparse, large⟩ := valid.length_entries_le
  have unoccupied := @countP_replicate_empty Slot.isOccupied rfl (t.capacity * 2)
  have room : (Array.replicate (t.capacity * 2) Slot.empty).countP Slot.isOccupied + es.length <
      (Array.replicate (t.capacity * 2) Slot.empty).size := by
    rw [unoccupied, Array.size_replicate]
    omega
  obtain ⟨probed, unmarked, occupied, holds⟩ := probed_foldl_place (probed_replicate _)
    (countP_replicate_empty rfl _) room distinct (fun _ _ _ => not_holds_replicate)
  rw [unoccupied, Nat.zero_add] at occupied
  subst written
  exact ⟨probed, unmarked, occupied, fun k h =>
    (holds k h).trans (or_iff_right not_holds_replicate)⟩

/-- While a table grows there is an empty slot at all times. -/
theorem Valid.exists_empty_growing {t : InternTable} (valid : t.Valid) (n : Nat) :
    ∃ i : Nat, ((t.entries.take n).foldl place
      (Array.replicate (t.capacity * 2) .empty))[i]? = some .empty := by
  obtain ⟨sparse, large⟩ := valid.length_entries_le
  have front : ((t.entries.take n).map Prod.fst).Nodup :=
    (nodup_entries valid.probed).sublist ((List.take_sublist n t.entries).map Prod.fst)
  have fewer : (t.entries.take n).length ≤ t.entries.length := (List.take_sublist ..).length_le
  obtain ⟨-, unmarked, occupied, -⟩ := valid.rehash front fewer rfl
  refine InternTable.exists_empty ?_
  rw [unmarked, occupied, size_foldl_place, Array.size_replicate]
  omega

theorem Valid.grow {t : InternTable} (valid : t.Valid) :
    t.grow.Valid ∧ t.grow.HasRoom ∧ ∀ k h, Holds t.grow.slots k h ↔ Holds t.slots k h := by
  obtain ⟨sparse, large⟩ := valid.length_entries_le
  have doubled := t.capacity_grow
  obtain ⟨probed, unmarked, occupied, holds⟩ :=
    valid.rehash (nodup_entries valid.probed) (Nat.le_refl _) (show _ = t.grow.slots from rfl)
  refine ⟨⟨?_, occupied.symm, unmarked.symm, ?_, probed⟩, ?_, fun k h => ?_⟩
  · obtain ⟨k, large, power⟩ := valid.power
    exact ⟨k + 1, Nat.le_succ_of_le large, by rw [doubled, power, Nat.pow_succ]⟩
  · show 4 * (t.entries.length + 0) ≤ 3 * t.grow.capacity
    omega
  · show 4 * (t.entries.length + 0 + 1) ≤ 3 * t.grow.capacity
    omega
  · rw [holds, mem_entries]

/-- Making room keeps the handles. -/
theorem Valid.reserve {t : InternTable} (valid : t.Valid) :
    t.reserve.Valid ∧ t.reserve.HasRoom ∧ ∀ k h, Holds t.reserve.slots k h ↔ Holds t.slots k h := by
  unfold InternTable.reserve
  split
  · exact valid.grow
  · rename_i sparse
    refine ⟨valid, ?_, fun k h => Iff.rfl⟩
    obtain ⟨m, pos, capacity⟩ := valid.capacity_eq
    rw [isCrowded, decide_eq_true_iff] at sparse
    unfold HasRoom
    omega

/-! ## Operations -/

theorem valid_ofCapacity (least : Nat) : (ofCapacity least).Valid ∧
    ∀ k h, ¬ Holds (ofCapacity least).slots k h := by
  have large := Nat.le_trans (Nat.le_max_right least 8) (le_roundUp least)
  refine ⟨⟨⟨Nat.log2 (max least 8 - 1) + 1, ?_, ?_⟩, ?_, ?_, Nat.zero_le _, probed_replicate _⟩,
    fun _ _ => not_holds_replicate⟩
  · exact (Nat.pow_le_pow_iff_right (by decide)).1 (show 2 ^ 3 ≤ _ from large)
  · rw [capacity, ofCapacity, Array.size_replicate, roundUp, Nat.pow_eq]
  · exact (countP_replicate_empty rfl _).symm
  · exact (countP_replicate_empty rfl _).symm

section
variable {t : InternTable} {key : Handle} {hash : UInt32}

/-- A handle that may only be held under one hash is held under it or not at all. -/
theorem not_holds (fixed : ∀ h, Holds t.slots key h → h = hash) (absent : ¬ Holds t.slots key hash)
    (h : UInt32) : ¬ Holds t.slots key h := by
  intro held
  rw [fixed h held] at held
  exact absent held

/-- The search for a handle tells whether it is held. -/
theorem isStored_iff (valid : t.Valid) (fixed : ∀ h, Holds t.slots key h → h = hash) :
    t.isStored key hash = true ↔ Holds t.slots key hash := by
  have sought := sought_slotOf key hash valid.exists_empty
  unfold isStored
  by_cases held : Holds t.slots key hash
  · obtain ⟨i, found⟩ := held
    rw [sought.eq_of_holds valid.probed found, found]
    exact ⟨fun _ => ⟨i, found⟩, fun _ => rfl⟩
  · obtain ⟨free, -⟩ := sought.free_of_not_holds (not_holds fixed held)
    rcases free with mark | empty
    · rw [mark]
      exact ⟨nofun, fun present => absurd present held⟩
    · rw [empty]
      exact ⟨nofun, fun present => absurd present held⟩

theorem size_pos (valid : t.Valid) (held : Holds t.slots key hash) : 0 < t.size := by
  obtain ⟨i, found⟩ := held
  rw [valid.size]
  exact Array.countP_pos_iff.2 ⟨_, Array.mem_of_getElem? found, rfl⟩

/-- A handle is in the table just if it is held. -/
theorem Valid.contains (valid : t.Valid) (fixed : ∀ h, Holds t.slots key h → h = hash) :
    t.contains key hash = true ↔ Holds t.slots key hash := by
  rw [InternTable.contains, Bool.and_eq_true, isStored_iff valid fixed]
  refine ⟨And.right, fun held => ⟨?_, held⟩⟩
  have := size_pos valid held
  simp
  omega

/-- If none is found for a text no handle with the text is held under the hash. -/
theorem Valid.find?_eq_none {α : Type} [DecidableEq α] (valid : t.Valid)
    {textOf : Handle → Option α} {text : α}
    (missed : t.find? textOf text hash = none) (held : Holds t.slots key hash) :
    textOf key ≠ some text := by
  have pos := size_pos valid held
  rw [find?, if_neg (by omega), ← spot_zero] at missed
  obtain ⟨last, nothing, passed⟩ :=
    seekText_eq_none (endsWithin_of_empty valid.exists_empty) missed
  obtain ⟨j, here⟩ := held
  obtain ⟨d, -, rfl, unbroken⟩ := valid.probed.chained here
  have before : d < last := by
    rcases Nat.lt_trichotomy d last with less | rfl | more
    · exact less
    · rw [nothing] at here
      cases here
    · exact absurd nothing (unbroken last more)
  exact passed d (Nat.zero_le d) before key here

/-- What is added goes to the free slot where the search led, and takes the mark from it. -/
theorem insert_of_free {old : Slot}
    (found : t.reserve.slots[slotOf t.reserve.slots key hash]? = some old)
    (free : old.isOccupied = false) :
    t.insert key hash = (true, ⟨place t.reserve.slots (key, hash), t.reserve.size + 1,
      t.reserve.tombstones - (if old.isTombstone then 1 else 0)⟩) := by
  unfold InternTable.insert
  dsimp only
  rw [found]
  cases old with
  | occupied _ _ => cases free
  | empty => rfl
  | tombstone => rfl

/-- What is held already is not added, but room is made. -/
theorem insert_of_holds (probed : Probed t.reserve.slots)
    (room : ∃ i : Nat, t.reserve.slots[i]? = some .empty)
    (held : Holds t.reserve.slots key hash) : t.insert key hash = (false, t.reserve) := by
  obtain ⟨i, found⟩ := held
  have here := (sought_slotOf key hash room).eq_of_holds probed found
  unfold InternTable.insert
  dsimp only
  rw [here, found]

/-- A handle is added if it is not held. -/
theorem Valid.insert (valid : t.Valid) (fixed : ∀ h, Holds t.slots key h → h = hash) :
    (t.insert key hash).2.Valid ∧ ((t.insert key hash).1 = true ↔ ¬ Holds t.slots key hash) ∧
      ∀ k h, Holds (t.insert key hash).2.slots k h ↔
        Holds t.slots k h ∨ (k = key ∧ h = hash) := by
  obtain ⟨valid', room, same⟩ := valid.reserve
  have fixed' : ∀ h, Holds t.reserve.slots key h → h = hash :=
    fun h held => fixed h ((same key h).1 held)
  simp only [← same]
  by_cases held : Holds t.reserve.slots key hash
  · rw [insert_of_holds valid'.probed valid'.exists_empty held]
    refine ⟨valid', ⟨nofun, fun absent => absurd held absent⟩, fun k h => ⟨.inl, ?_⟩⟩
    intro either
    rcases either with before | ⟨rfl, rfl⟩
    · exact before
    · exact held
  · obtain ⟨old, found, free, probed, occupied, marked, holds⟩ :=
      probed_place valid'.probed (not_holds fixed' held) valid'.exists_empty
    rw [insert_of_free found free]
    have size := valid'.size
    have tombstones := valid'.tombstones
    have capacity : (place t.reserve.slots (key, hash)).size = t.reserve.capacity := size_place _ _
    unfold HasRoom at room
    refine ⟨⟨?_, ?_, ?_, ?_, probed⟩, ⟨fun _ => held, fun _ => rfl⟩, holds⟩
    · obtain ⟨k, large, power⟩ := valid'.power
      exact ⟨k, large, capacity.trans power⟩
    · show t.reserve.size + 1 = (place t.reserve.slots (key, hash)).countP Slot.isOccupied
      omega
    · show t.reserve.tombstones - (if old.isTombstone then 1 else 0) =
        (place t.reserve.slots (key, hash)).countP Slot.isTombstone
      omega
    · show 4 * (t.reserve.size + 1 + (t.reserve.tombstones - (if old.isTombstone then 1 else 0))) ≤
        3 * (place t.reserve.slots (key, hash)).size
      omega

/-- A handle is deleted if it is held. -/
theorem Valid.delete (valid : t.Valid) (fixed : ∀ h, Holds t.slots key h → h = hash) :
    (t.delete key hash).2.Valid ∧ ((t.delete key hash).1 = true ↔ Holds t.slots key hash) ∧
      ∀ k h, Holds (t.delete key hash).2.slots k h ↔ Holds t.slots k h ∧ k ≠ key := by
  have present := valid.contains fixed
  unfold InternTable.delete
  by_cases held : Holds t.slots key hash
  · rw [if_pos (present.2 held)]
    obtain ⟨i, found⟩ := held
    have here := (sought_slotOf key hash valid.exists_empty).eq_of_holds valid.probed found
    have occupied := countP_write found Slot.isOccupied .tombstone
    have marked := countP_write found Slot.isTombstone .tombstone
    simp only [Slot.isOccupied, Slot.isTombstone, if_true, Bool.false_eq_true, if_false]
      at occupied marked
    have size := valid.size
    have tombstones := valid.tombstones
    have load := valid.load
    rw [here]
    refine ⟨⟨?_, ?_, ?_, ?_, valid.probed.erase found⟩,
      ⟨fun _ => ⟨i, found⟩, fun _ => rfl⟩, fun k h => holds_erase valid.probed found⟩
    · rw [InternTable.capacity, Array.size_setIfInBounds]
      exact valid.power
    · show t.size - 1 = (t.slots.setIfInBounds i .tombstone).countP Slot.isOccupied
      omega
    · show t.tombstones + 1 = (t.slots.setIfInBounds i .tombstone).countP Slot.isTombstone
      omega
    · have := size_pos valid ⟨i, found⟩
      show 4 * (t.size - 1 + (t.tombstones + 1)) ≤ 3 * (t.slots.setIfInBounds i .tombstone).size
      rw [Array.size_setIfInBounds]
      unfold InternTable.capacity at load
      omega
  · have absent : ¬ t.contains key hash = true := fun contained => held (present.1 contained)
    rw [if_neg absent]
    refine ⟨valid, ⟨fun deleted => absurd deleted Bool.false_ne_true,
      fun contained => absurd contained held⟩, fun k h => ?_⟩
    refine ⟨fun other => ⟨other, ?_⟩, And.left⟩
    intro same
    subst same
    exact not_holds fixed held h other

end

end InternTable

end Pseudocode
