import Mathlib.Data.Finset.Card
import Mathlib.Data.Finset.Dedup
import Pseudocode.Proofs.Heap.TableSet
/-!
# How far a table grows

A table doubles when three quarters of its slots are taken or marked, and the marks of deleted
handles count like the handles. So what bounds the capacity is the number of handles and marks
together, not that of the handles alone.

Marks are bounded in their turn. Every slot that is taken or marked can be given a handle of its own
among the handles ever inserted (`Owned`): the one in the slot, or a deleted one whose search passes
the mark, so that it takes this mark or an earlier one when it comes back. Deleting and inserting a
fixed set of handles over and over therefore does not make a table grow without end; with ever new
handles it does, though one at most is in the table at any time.

* `capacity_reserve`, `capacity_insert`, `capacity_delete`: one call;
* `Owned.place`, `Owned.erase`: what a call does to the owners;
* `capacity_le_of_calls`: any number of calls;
* `swept_churn`: the table after so many handles came and went.
-/
namespace Pseudocode.InternTable

/-! ## One call -/

section
variable (t : InternTable) (key : Handle) (hash : UInt32)

theorem capacity_reserve :
    t.reserve.capacity = if t.isCrowded then t.capacity * 2 else t.capacity := by
  unfold reserve
  split
  · exact t.capacity_grow
  · rfl

theorem capacity_insert : (t.insert key hash).2.capacity = t.reserve.capacity := by
  unfold insert
  dsimp only
  split <;> simp [capacity]

theorem capacity_delete : (t.delete key hash).2.capacity = t.capacity := by
  unfold delete
  split <;> simp [capacity]

end

/-! ## Calls on one table -/

/-- A call on a table in which every handle has one hash. -/
inductive KeyCall where
  | insert (key : Handle)
  | delete (key : Handle)
  deriving DecidableEq, Repr

/-- The table after one more call. -/
def KeyCall.after (hashOf : Handle → UInt32) (t : InternTable) : KeyCall → InternTable
  | insert key => (t.insert key (hashOf key)).2
  | delete key => (t.delete key (hashOf key)).2

/-- A new table after some calls. -/
def afterCalls (hashOf : Handle → UInt32) (calls : List KeyCall) : InternTable :=
  calls.foldl (KeyCall.after hashOf) new

/-- The handles that some calls insert. -/
def insertedKeys (calls : List KeyCall) : Finset Handle :=
  (calls.filterMap fun
    | .insert key => some key
    | .delete _ => none).toFinset

section
variable (hashOf : Handle → UInt32) (calls : List KeyCall)

theorem afterCalls_concat (call : KeyCall) :
    afterCalls hashOf (calls ++ [call]) = call.after hashOf (afterCalls hashOf calls) := by
  simp [afterCalls]

theorem insertedKeys_insert (key : Handle) :
    insertedKeys (calls ++ [.insert key]) = Insert.insert key (insertedKeys calls) := by
  simp [insertedKeys, List.filterMap_append]

theorem insertedKeys_delete (key : Handle) :
    insertedKeys (calls ++ [.delete key]) = insertedKeys calls := by
  simp [insertedKeys, List.filterMap_append]

theorem insertedKeys_take_subset (n : Nat) :
    insertedKeys (calls.take n) ⊆ insertedKeys calls := by
  have front : calls.take n ⊆ calls := List.take_subset n calls
  intro key inside
  simp only [insertedKeys, List.mem_toFinset, List.mem_filterMap] at inside ⊢
  obtain ⟨call, among, same⟩ := inside
  exact ⟨call, front among, same⟩

/-- A table that doubles holds handles and marks in three quarters of its slots. -/
theorem capacity_le_of_load {hashOf : Handle → UInt32} {most : Nat} (calls : List KeyCall)
    (few : ∀ n, (afterCalls hashOf (calls.take n)).size +
      (afterCalls hashOf (calls.take n)).tombstones ≤ most) :
    3 * (afterCalls hashOf calls).capacity ≤ max 24 (8 * most) := by
  induction calls using List.reverseRecOn with
  | nil => exact Nat.le_max_left _ _
  | append_singleton calls call ih =>
    have before := ih fun n => by
      have := few (min n calls.length)
      rwa [List.take_append_of_le_length (Nat.min_le_right _ _), ← List.take_take,
        List.take_length] at this
    have load := few calls.length
    rw [List.take_left] at load
    rw [afterCalls_concat]
    generalize afterCalls hashOf calls = t at before load ⊢
    cases call with
    | delete key =>
      rw [KeyCall.after, capacity_delete]
      exact before
    | insert key =>
      rw [KeyCall.after, capacity_insert, capacity_reserve]
      split
      · rename_i crowded
        simp only [isCrowded, decide_eq_true_iff] at crowded
        omega
      · exact before

end

/-! ## Owners of slots -/

/-- The slot is taken or marked. -/
def Used (slots : Array Slot) (i : Nat) : Prop := ∃ s, slots[i]? = some s ∧ s ≠ .empty

/-- A search for the hash that does not end sooner gets to the slot. -/
def Passes (slots : Array Slot) (hash : UInt32) (i : Nat) : Prop :=
  ∃ d, spot slots hash d = i ∧ ∀ e < d, slots[spot slots hash e]? ≠ some .empty

/-- Every slot that is taken or marked has an owner of its own among the handles: the handle in it,
or one whose search passes the mark. -/
structure Owned (hashOf : Handle → UInt32) (slots : Array Slot) (keys : Finset Handle)
    (owner : Nat → Handle) : Prop where
  mem : ∀ i, Used slots i → owner i ∈ keys
  distinct : ∀ i j, Used slots i → Used slots j → owner i = owner j → i = j
  here : ∀ i key h, slots[i]? = some (.occupied key h) → owner i = key
  passes : ∀ i, Used slots i → Passes slots (hashOf (owner i)) i

section
variable {hashOf : Handle → UInt32} {slots : Array Slot} {keys : Finset Handle}
  {owner : Nat → Handle} {key : Handle} {hash : UInt32}

theorem used_iff {i : Nat} : Used slots i ↔ slots[i]?.getD .empty ≠ .empty := by
  cases found : slots[i]? with
  | none => simp [Used, found]
  | some s => simp [Used, found]

/-- The slots that are taken and those that are marked, counted by their places. -/
theorem countP_used (slots : Array Slot) :
    slots.countP Slot.isOccupied + slots.countP Slot.isTombstone =
      ((List.range slots.size).filter fun i => slots[i]?.getD .empty ≠ .empty).length := by
  have listed : slots.toList = (List.range slots.size).map fun i => slots[i]?.getD .empty := by
    refine List.ext_getElem (by simp) fun i inside _ => ?_
    have small : i < slots.size := by simpa using inside
    simp [small]
  have parted (l : List Slot) : l.countP Slot.isOccupied + l.countP Slot.isTombstone =
      l.countP fun s => s ≠ .empty := by
    induction l with
    | nil => rfl
    | cons s l ih =>
      simp only [List.countP_cons, ← ih]
      cases s <;> simp [Slot.isOccupied, Slot.isTombstone] <;> omega
  rw [← Array.countP_toList, ← Array.countP_toList, parted, listed, List.countP_map,
    List.countP_eq_length_filter]
  rfl

/-- No more slots are taken or marked than there are handles. -/
theorem Owned.countP_le (owned : Owned hashOf slots keys owner) :
    slots.countP Slot.isOccupied + slots.countP Slot.isTombstone ≤ keys.card := by
  rw [countP_used]
  generalize listed : (List.range slots.size).filter _ = places
  have used {i : Nat} (inside : i ∈ places) : Used slots i := by
    rw [← listed, List.mem_filter, decide_eq_true_iff] at inside
    exact used_iff.2 inside.2
  have once : places.Nodup := by
    rw [← listed]
    exact List.nodup_range.filter _
  have distinct : (places.map owner).Nodup :=
    once.map_on fun i inside j inside' same => owned.distinct i j (used inside) (used inside') same
  rw [← List.length_map owner, ← List.toFinset_card_of_nodup distinct]
  refine Finset.card_le_card fun k inside => ?_
  obtain ⟨i, among, rfl⟩ := List.mem_map.1 (List.mem_toFinset.1 inside)
  exact owned.mem i (used among)

/-- Where two searches meet they go on together. -/
theorem spot_add {hash' : UInt32} {d d' : Nat} (same : spot slots hash d = spot slots hash' d')
    (x : Nat) : spot slots hash (d + x) = spot slots hash' (d' + x) := by
  unfold spot at same ⊢
  rw [← Nat.add_assoc, ← Nat.add_assoc, Nat.add_mod, same, ← Nat.add_mod]

/-- A search for a handle that is not held ends with the first mark passed. -/
theorem seek_of_mark (absent : ∀ h, ¬ Holds slots key h) :
    ∀ turns p i, seek slots key turns p (some i) = i := by
  intro turns
  induction turns with
  | zero => exact fun p i => rfl
  | succ turns ih =>
    intro p i
    rw [seek]
    split
    · rfl
    · rfl
    · exact ih _ i
    · rename_i k h here
      have other : k ≠ key := by
        intro same
        subst same
        exact absent h ⟨p, here⟩
      rw [if_neg other]
      exact ih _ i

/-- A search for a handle that is not held does not get past a mark. -/
theorem seek_of_tombstone (absent : ∀ h, ¬ Holds slots key h) {c : Nat}
    (mark : slots[spot slots hash c]? = some .tombstone) :
    ∀ {turns d : Nat}, d ≤ c → c < d + turns →
      (∀ e < c, slots[spot slots hash e]? ≠ some .empty) →
      ∃ b ≤ c, seek slots key turns (spot slots hash d) none = spot slots hash b ∧
        slots[spot slots hash b]? = some .tombstone := by
  intro turns
  induction turns with
  | zero => omega
  | succ turns ih =>
    intro d before near unbroken
    have further (different : slots[spot slots hash d]? ≠ some .tombstone) : d + 1 ≤ c := by
      rcases Nat.eq_or_lt_of_le before with rfl | less
      · exact absurd mark different
      · exact less
    have inside := Nat.zero_lt_of_lt (Array.getElem?_eq_some_iff.1 mark).1
    rw [seek]
    split
    · rename_i none
      rw [Array.getElem?_eq_none_iff] at none
      exact absurd (Nat.mod_lt _ inside) (Nat.not_lt.2 none)
    · rename_i empty
      exact absurd empty (unbroken d (further (by simp [empty])))
    · rename_i here
      exact ⟨d, before, seek_of_mark absent _ _ _, here⟩
    · rename_i k h here
      have other : k ≠ key := by
        intro same
        subst same
        exact absent h ⟨_, here⟩
      rw [if_neg other, after_spot]
      exact ih (further (by simp [here])) (by omega) unbroken

end

section
variable {hashOf : Handle → UInt32} {slots : Array Slot} {keys : Finset Handle}
  {owner : Nat → Handle} {key : Handle}

theorem used_write {i : Nat} {old new : Slot} (found : slots[i]? = some old) (taken : new ≠ .empty)
    {j : Nat} : Used (slots.setIfInBounds i new) j ↔ j = i ∨ Used slots j := by
  constructor
  · rintro ⟨s, inside, more⟩
    rcases (getElem?_write_eq_some found).1 inside with ⟨same, -⟩ | ⟨-, before⟩
    · exact .inl same
    · exact .inr ⟨s, before, more⟩
  · intro given
    by_cases same : j = i
    · exact ⟨new, (getElem?_write_eq_some found).2 (.inl ⟨same, rfl⟩), taken⟩
    · obtain ⟨s, before, more⟩ := given.resolve_left same
      exact ⟨s, (getElem?_write_eq_some found).2 (.inr ⟨same, before⟩), more⟩

/-- A search still gets to a slot when another one, or this, is written and not emptied. -/
theorem Passes.write {hash : UInt32} {i j : Nat} {old new : Slot} (passes : Passes slots hash j)
    (found : slots[i]? = some old) (taken : new ≠ .empty) :
    Passes (slots.setIfInBounds i new) hash j := by
  obtain ⟨d, there, unbroken⟩ := passes
  refine ⟨d, by rw [spot_write, there], fun e before empty => ?_⟩
  rw [spot_write] at empty
  rcases (getElem?_write_eq_some found).1 empty with ⟨-, same⟩ | ⟨-, more⟩
  · exact taken same.symm
  · exact unbroken e before more

/-- A deleted handle owns the mark in its slot. -/
theorem Owned.erase (owned : Owned hashOf slots keys owner) {i : Nat} {h : UInt32}
    (found : slots[i]? = some (.occupied key h)) :
    Owned hashOf (slots.setIfInBounds i .tombstone) keys owner := by
  have used {j : Nat} (marked : Used (slots.setIfInBounds i .tombstone) j) : Used slots j := by
    rcases (used_write found (by simp)).1 marked with rfl | before
    · exact ⟨_, found, by simp⟩
    · exact before
  refine ⟨fun j marked => owned.mem j (used marked), fun j k first second =>
    owned.distinct j k (used first) (used second), fun j k g here => ?_, fun j marked =>
      (owned.passes j (used marked)).write found (by simp)⟩
  rcases (getElem?_write_eq_some found).1 here with ⟨-, new⟩ | ⟨-, before⟩
  · cases new
  · exact owned.here j k g before

/-- A handle is written to a slot, and owned no other one. -/
theorem Owned.occupy (owned : Owned hashOf slots keys owner) {i : Nat} {old : Slot}
    (found : slots[i]? = some old) (passes : Passes slots (hashOf key) i)
    (alone : ∀ j ≠ i, Used slots j → owner j ≠ key) :
    Owned hashOf (slots.setIfInBounds i (.occupied key (hashOf key))) (Insert.insert key keys)
      (Function.update owner i key) := by
  have used {j : Nat} (other : j ≠ i)
      (taken : Used (slots.setIfInBounds i (.occupied key (hashOf key))) j) : Used slots j :=
    ((used_write found (by simp)).1 taken).resolve_left other
  refine ⟨fun j taken => ?_, fun j k first second same => ?_, fun j k g here => ?_,
    fun j taken => ?_⟩
  · by_cases other : j = i
    · simp [other]
    · rw [Function.update_of_ne other]
      exact Finset.mem_insert_of_mem (owned.mem j (used other taken))
  · by_cases a : j = i <;> by_cases b : k = i
    · rw [a, b]
    · rw [a, Function.update_self, Function.update_of_ne b] at same
      exact absurd same.symm (alone k b (used b second))
    · rw [b, Function.update_self, Function.update_of_ne a] at same
      exact absurd same (alone j a (used a first))
    · rw [Function.update_of_ne a, Function.update_of_ne b] at same
      exact owned.distinct j k (used a first) (used b second) same
  · rcases (getElem?_write_eq_some found).1 here with ⟨rfl, new⟩ | ⟨other, before⟩
    · cases new
      exact Function.update_self ..
    · rw [Function.update_of_ne other]
      exact owned.here j k g before
  · by_cases other : j = i
    · rw [other, Function.update_self]
      exact passes.write found (by simp)
    · rw [Function.update_of_ne other]
      exact (owned.passes j (used other taken)).write found (by simp)

/-- Two marks change owners, if the search of each owner passes the other's mark. -/
theorem Owned.swap (owned : Owned hashOf slots keys owner) {i j : Nat}
    (first : slots[i]? = some .tombstone) (second : slots[j]? = some .tombstone)
    (there : Passes slots (hashOf (owner i)) j) (back : Passes slots (hashOf (owner j)) i) :
    Owned hashOf slots keys (owner ∘ Equiv.swap i j) := by
  have used {k : Nat} (taken : Used slots k) : Used slots (Equiv.swap i j k) := by
    rw [Equiv.swap_apply_def]
    split
    · exact ⟨_, second, by simp⟩
    split
    · exact ⟨_, first, by simp⟩
    · exact taken
  refine ⟨fun k taken => owned.mem _ (used taken), fun k l a b same => ?_, fun k key h here => ?_,
    fun k taken => ?_⟩
  · exact (Equiv.swap i j).injective (owned.distinct _ _ (used a) (used b) same)
  · have a : k ≠ i := by
      rintro rfl
      simp [here] at first
    have b : k ≠ j := by
      rintro rfl
      simp [here] at second
    rw [Function.comp_apply, Equiv.swap_apply_of_ne_of_ne a b]
    exact owned.here k key h here
  · rw [Function.comp_apply, Equiv.swap_apply_def]
    split
    · rename_i same
      rw [same]
      exact back
    split
    · rename_i same
      rw [same]
      exact there
    · exact owned.passes k taken

/-- A deleted handle that comes back takes the first mark that its search meets. The mark may be
another's, who then gets the one given up: the search of that owner goes on with the search of the
handle, so it passes this mark as well. -/
theorem Owned.occupy_again (owned : Owned hashOf slots keys owner) {b c : Nat}
    (own : slots[spot slots (hashOf key) c]? = some .tombstone)
    (same : owner (spot slots (hashOf key) c) = key) (before : b ≤ c)
    (taken : slots[spot slots (hashOf key) b]? = some .tombstone)
    (unbroken : ∀ e < c, slots[spot slots (hashOf key) e]? ≠ some .empty) :
    ∃ owner', Owned hashOf
      (slots.setIfInBounds (spot slots (hashOf key) b) (.occupied key (hashOf key)))
      (Insert.insert key keys) owner' := by
  have given : Used slots (spot slots (hashOf key) b) := ⟨_, taken, by simp⟩
  have left : Used slots (spot slots (hashOf key) c) := ⟨_, own, by simp⟩
  have back : Passes slots (hashOf key) (spot slots (hashOf key) b) :=
    ⟨b, rfl, fun e less => unbroken e (by omega)⟩
  have there : Passes slots (hashOf (owner (spot slots (hashOf key) b)))
      (spot slots (hashOf key) c) := by
    obtain ⟨d, met, free⟩ := owned.passes _ given
    refine ⟨d + (c - b), ?_, fun e less => ?_⟩
    · rw [spot_add met, Nat.add_sub_cancel' before]
    · rcases Nat.lt_or_ge e d with near | far
      · exact free e near
      · have on := spot_add met (e - d)
        rw [Nat.add_sub_cancel' far] at on
        rw [on]
        exact unbroken _ (by omega)
  have swapped := owned.swap taken own there (by rw [same]; exact back)
  refine ⟨_, swapped.occupy taken back fun j other used owns => other ?_⟩
  refine swapped.distinct j _ used given (owns.trans ?_)
  rw [Function.comp_apply, Equiv.swap_apply_left, same]

/-- What a handle owns that is not held is a mark, and the search for the handle passes it. -/
theorem Owned.mark (owned : Owned hashOf slots keys owner) (absent : ∀ h, ¬ Holds slots key h)
    {j : Nat} (used : Used slots j) (owns : owner j = key) :
    slots[j]? = some .tombstone ∧ Passes slots (hashOf key) j := by
  refine ⟨?_, owns ▸ owned.passes j used⟩
  obtain ⟨slot, here, more⟩ := used
  cases slot with
  | empty => exact absurd rfl more
  | tombstone => exact here
  | occupied k h =>
    obtain rfl : k = key := (owned.here j k h here).symm.trans owns
    exact absurd ⟨j, here⟩ (absent h)

/-- Writing a handle that is not held to the slot where the search for it led. -/
theorem Owned.place (owned : Owned hashOf slots keys owner) (absent : ∀ h, ¬ Holds slots key h)
    (room : ∃ i : Nat, slots[i]? = some .empty) :
    ∃ owner', Owned hashOf (place slots (key, hashOf key)) (Insert.insert key keys) owner' := by
  by_cases alone : ∀ j, Used slots j → owner j ≠ key
  · obtain ⟨free, d, -, there, unbroken⟩ :=
      (sought_slotOf key (hashOf key) room).free_of_not_holds absent
    obtain ⟨old, found⟩ : ∃ old, slots[slotOf slots key (hashOf key)]? = some old := by
      rcases free with mark | empty
      · exact ⟨_, mark⟩
      · exact ⟨_, empty⟩
    exact ⟨_, owned.occupy found ⟨d, there, unbroken⟩ fun j _ => alone j⟩
  · -- the handle was here before, and its mark is still there
    push Not at alone
    obtain ⟨j, used, owns⟩ := alone
    obtain ⟨mark, c, at_c, clear⟩ := owned.mark absent used owns
    rw [← at_c] at mark owns
    have near : c < slots.size := by
      obtain ⟨e, -, less, empty⟩ := @endsWithin_of_empty slots (hashOf key) room
      refine Nat.lt_of_not_le fun far => clear e (by omega) empty
    obtain ⟨b, before, leads, taken⟩ := seek_of_tombstone absent mark (Nat.zero_le c)
      (show c < 0 + slots.size by omega) clear
    rw [spot_zero] at leads
    rw [InternTable.place, slotOf, leads]
    exact owned.occupy_again mark owns before taken clear

end

/-! ## Tables with owners -/

/-- The table stands for a set, and its slots have owners among the handles. -/
structure Kept (hashOf : Handle → UInt32) (t : InternTable) (s keys : Finset Handle) : Prop where
  stands : StandsFor hashOf t s
  subset : s ⊆ keys
  owned : ∃ owner, Owned hashOf t.slots keys owner

section
variable {hashOf : Handle → UInt32} {t : InternTable} {s keys : Finset Handle}

theorem Kept.load_le (kept : Kept hashOf t s keys) : t.size + t.tombstones ≤ keys.card := by
  obtain ⟨owner, owned⟩ := kept.owned
  rw [kept.stands.valid.size, kept.stands.valid.tombstones]
  exact owned.countP_le

theorem Valid.not_tombstone (valid : t.Valid) (unmarked : t.tombstones = 0) (i : Nat) :
    t.slots[i]? ≠ some .tombstone := by
  intro mark
  have none := valid.tombstones.symm.trans unmarked
  exact absurd (Array.countP_eq_zero.1 none _ (Array.mem_of_getElem? mark)) (by decide)

/-- A table without marks: every handle owns its slot. -/
theorem kept_of_unmarked (stands : StandsFor hashOf t s) (subset : s ⊆ keys)
    (unmarked : t.tombstones = 0) : Kept hashOf t s keys := by
  let owner (i : Nat) : Handle := ((t.slots[i]?.bind Slot.entry?).map Prod.fst).getD ⟨0⟩
  have occupied {i : Nat} (used : Used t.slots i) :
      ∃ key, t.slots[i]? = some (.occupied key (hashOf key)) ∧ owner i = key := by
    obtain ⟨slot, found, more⟩ := used
    cases slot with
    | empty => exact absurd rfl more
    | tombstone => exact absurd found (stands.valid.not_tombstone unmarked i)
    | occupied key h =>
      obtain rfl := stands.fixed key h ⟨i, found⟩
      exact ⟨key, found, by simp [owner, found, Slot.entry?]⟩
  refine ⟨stands, subset, owner, fun i used => ?_, fun i j first second same => ?_,
    fun i key h here => by simp [owner, here, Slot.entry?], fun i used => ?_⟩
  · obtain ⟨key, found, same⟩ := occupied used
    rw [same]
    exact subset ((stands.holds_iff key).1 ⟨i, found⟩)
  · obtain ⟨key, found, here⟩ := occupied first
    obtain ⟨key', found', here'⟩ := occupied second
    obtain rfl : key = key' := by rw [← here, same, here']
    exact stands.valid.probed.unique found found'
  · obtain ⟨key, found, same⟩ := occupied used
    obtain ⟨d, -, there, unbroken⟩ := stands.valid.probed.chained found
    rw [same]
    exact ⟨d, there, unbroken⟩

theorem kept_new (hashOf : Handle → UInt32) : Kept hashOf new ∅ ∅ :=
  kept_of_unmarked (standsFor_ofCapacity hashOf 8) (Finset.Subset.refl _) rfl

theorem StandsFor.reserve (stands : StandsFor hashOf t s) : StandsFor hashOf t.reserve s := by
  obtain ⟨valid, -, same⟩ := stands.valid.reserve
  exact ⟨valid, fun k h => (same k h).trans (stands.holds k h)⟩

/-- When a table grows all marks go, and with them the owners without a slot. -/
theorem Kept.reserve (kept : Kept hashOf t s keys) : Kept hashOf t.reserve s keys := by
  have stands := kept.stands.reserve
  unfold InternTable.reserve at stands ⊢
  split
  · rename_i crowded
    rw [if_pos crowded] at stands
    exact kept_of_unmarked stands kept.subset rfl
  · exact kept

theorem Kept.insert (kept : Kept hashOf t s keys) (key : Handle) :
    Kept hashOf (t.insert key (hashOf key)).2 (Insert.insert key s) (Insert.insert key keys) := by
  refine ⟨(kept.stands.insert key).2, Finset.insert_subset_insert key kept.subset, ?_⟩
  obtain ⟨stands, subset, owner, owned⟩ := kept.reserve
  have valid := stands.valid
  by_cases held : key ∈ s
  · rw [insert_of_holds valid.probed valid.exists_empty ((stands.holds_iff key).2 held),
      Finset.insert_eq_of_mem (subset held)]
    exact ⟨owner, owned⟩
  · have absent := not_holds (stands.fixed key) fun here => held ((stands.holds_iff key).1 here)
    obtain ⟨old, found, free, -⟩ := @probed_place _ _ (hashOf key) valid.probed absent
      valid.exists_empty
    rw [insert_of_free found free]
    exact owned.place absent valid.exists_empty

/-- What is held under its hash leaves a mark when it is deleted. -/
theorem StandsFor.delete_eq (stands : StandsFor hashOf t s) {key : Handle} {i : Nat}
    (found : t.slots[i]? = some (.occupied key (hashOf key))) :
    t.delete key (hashOf key) =
      (true, ⟨t.slots.setIfInBounds i .tombstone, t.size - 1, t.tombstones + 1⟩) := by
  have held : key ∈ s := (stands.holds_iff key).1 ⟨i, found⟩
  have here := (sought_slotOf key (hashOf key) stands.valid.exists_empty).eq_of_holds
    stands.valid.probed found
  rw [InternTable.delete, stands.contains, decide_eq_true held, if_pos rfl, here]

theorem Kept.delete (kept : Kept hashOf t s keys) (key : Handle) :
    Kept hashOf (t.delete key (hashOf key)).2 (s.erase key) keys := by
  obtain ⟨stands, subset, owner, owned⟩ := kept
  refine ⟨(stands.delete key).2, (s.erase_subset key).trans subset, owner, ?_⟩
  by_cases held : key ∈ s
  · obtain ⟨i, found⟩ := (stands.holds_iff key).2 held
    rw [stands.delete_eq found]
    exact owned.erase found
  · rw [InternTable.delete, stands.contains, decide_eq_false held, if_neg Bool.false_ne_true]
    exact owned

end

/-- Any number of calls on a new table, by induction from the first. -/
theorem kept_afterCalls (hashOf : Handle → UInt32) (calls : List KeyCall) :
    ∃ s, Kept hashOf (afterCalls hashOf calls) s (insertedKeys calls) := by
  induction calls using List.reverseRecOn with
  | nil => exact ⟨∅, kept_new hashOf⟩
  | append_singleton calls call ih =>
    obtain ⟨s, kept⟩ := ih
    rw [afterCalls_concat]
    cases call with
    | insert key =>
      rw [insertedKeys_insert]
      exact ⟨_, kept.insert key⟩
    | delete key =>
      rw [insertedKeys_delete]
      exact ⟨_, kept.delete key⟩

theorem load_le_of_calls (hashOf : Handle → UInt32) (calls : List KeyCall) :
    (afterCalls hashOf calls).size + (afterCalls hashOf calls).tombstones ≤
      (insertedKeys calls).card := by
  obtain ⟨s, kept⟩ := kept_afterCalls hashOf calls
  exact kept.load_le

/-- **What bounds the capacity.** A new table after any insertions and deletions of handles, each
under one hash, has at most four slots for every handle and mark that it held at any one time, or
eight. It never held more handles and marks together than there are different handles inserted. -/
theorem capacity_le_of_calls (hashOf : Handle → UInt32) (calls : List KeyCall) :
    (∀ most marks,
      (∀ n, (afterCalls hashOf (calls.take n)).size ≤ most ∧
        (afterCalls hashOf (calls.take n)).tombstones ≤ marks) →
      (afterCalls hashOf calls).capacity ≤ max 8 (4 * (most + marks))) ∧
    (∀ n, (afterCalls hashOf (calls.take n)).size + (afterCalls hashOf (calls.take n)).tombstones ≤
      (insertedKeys (calls.take n)).card) ∧
    (afterCalls hashOf calls).capacity ≤ max 8 (4 * (insertedKeys calls).card) := by
  refine ⟨fun most marks few => ?_, fun n => load_le_of_calls hashOf _, ?_⟩
  · have bound := capacity_le_of_load calls fun n => Nat.add_le_add (few n).1 (few n).2
    omega
  · have bound := capacity_le_of_load calls fun n =>
      (load_le_of_calls hashOf (calls.take n)).trans
        (Finset.card_le_card (insertedKeys_take_subset calls n))
    omega

/-- Six handles, three of which are deleted before the seventh comes: the table doubles. -/
theorem capacity_le_of_calls_seven :
    let calls : List KeyCall := [.insert ⟨1⟩, .insert ⟨9⟩, .insert ⟨2⟩, .insert ⟨17⟩, .insert ⟨3⟩,
      .insert ⟨25⟩, .delete ⟨1⟩, .delete ⟨9⟩, .delete ⟨17⟩, .insert ⟨4⟩]
    (afterCalls Handle.index calls).capacity = 16 ∧
      (afterCalls Handle.index calls).capacity ≤ max 8 (4 * (6 + 3)) ∧
      (afterCalls Handle.index calls).capacity ≤ max 8 (4 * (insertedKeys calls).card) := by
  intro calls
  obtain ⟨of_load, -, of_keys⟩ := capacity_le_of_calls Handle.index calls
  refine ⟨by decide +kernel, of_load 6 3 fun n => ?_, of_keys⟩
  rcases Nat.lt_or_ge n 10 with less | more
  · have each : ∀ n < 10, (afterCalls Handle.index (calls.take n)).size ≤ 6 ∧
        (afterCalls Handle.index (calls.take n)).tombstones ≤ 3 := by
      decide +kernel
    exact each n less
  · rw [List.take_of_length_le more]
    decide +kernel

/-! ## Ever new handles -/

/-- So many handles come and go, one at a time. -/
def churn (m : Nat) : List KeyCall :=
  (List.range m).flatMap fun k => [.insert (.ofNat k), .delete (.ofNat k)]

theorem churn_succ (m : Nat) :
    churn (m + 1) = churn m ++ [.insert (.ofNat m)] ++ [.delete (.ofNat m)] := by
  simp [churn, List.range_succ]

/-- The table after `m` handles came and went, each hashed to its number. The marks are those of the
last handles, and every time the table doubled it had lost three quarters of its slots to them. -/
structure Swept (t : InternTable) (m : Nat) : Prop where
  stands : StandsFor Handle.index t ∅
  recent : ∀ i, t.slots[i]? = some .tombstone →
    ∃ k < m, m ≤ k + t.tombstones ∧ k % t.capacity = i
  total : 4 * m + 24 = 4 * t.tombstones + 3 * t.capacity

theorem swept_new : Swept new 0 := by
  have stands := standsFor_ofCapacity Handle.index 8
  exact ⟨stands, fun i mark => absurd mark (stands.valid.not_tombstone rfl i), by decide⟩

section
variable {t : InternTable} {m : Nat}

theorem Swept.reserve (swept : Swept t m) : Swept t.reserve m := by
  have stands := swept.stands.reserve
  unfold InternTable.reserve at stands ⊢
  split
  · rename_i crowded
    rw [if_pos crowded] at stands
    refine ⟨stands, fun i mark => absurd mark (stands.valid.not_tombstone rfl i), ?_⟩
    have total := swept.total
    have load := swept.stands.valid.load
    have none := swept.stands.size_eq
    simp only [isCrowded, decide_eq_true_iff, Finset.card_empty] at crowded none
    rw [capacity_grow]
    show _ = 4 * 0 + 3 * (t.capacity * 2)
    omega
  · exact swept

/-- The next handle goes to its home: only handles that are too far behind were hashed there. -/
theorem Swept.home_empty (swept : Swept t m) (room : t.HasRoom) :
    t.slots[m % t.capacity]? = some .empty := by
  have sparse : t.tombstones < t.capacity := by
    unfold HasRoom at room
    omega
  obtain ⟨slot, found⟩ : ∃ slot, t.slots[m % t.capacity]? = some slot :=
    ⟨_, Array.getElem?_eq_getElem (Nat.mod_lt _ (Nat.zero_lt_of_lt sparse))⟩
  cases slot with
  | empty => exact found
  | occupied key h =>
    have := (swept.stands.holds key h).1 ⟨_, found⟩
    simp at this
  | tombstone =>
    obtain ⟨k, before, near, same⟩ := swept.recent _ found
    have apart := Nat.sub_mod_eq_zero_of_mod_eq same.symm
    rw [Nat.mod_eq_of_lt (by omega)] at apart
    omega

theorem slotOf_of_empty {slots : Array Slot} {hash : UInt32} (key : Handle)
    (here : slots[home slots hash]? = some .empty) : slotOf slots key hash = home slots hash := by
  obtain ⟨n, turns⟩ : ∃ n, slots.size = n + 1 :=
    Nat.exists_eq_add_one.2 (Nat.zero_lt_of_lt (Array.getElem?_eq_some_iff.1 here).1)
  rw [slotOf, turns, seek, here]
  rfl

theorem Swept.le_capacity (swept : Swept t m) : 2 * m + 12 ≤ 3 * t.capacity := by
  have total := swept.total
  have load := swept.stands.valid.load
  omega

theorem Swept.insert (swept : Swept t m) (small : m < UInt32.size) :
    t.insert (.ofNat m) (Handle.ofNat m).index = (true,
      ⟨t.reserve.slots.setIfInBounds (m % t.reserve.capacity)
        (.occupied (.ofNat m) (Handle.ofNat m).index), 1, t.reserve.tombstones⟩) := by
  have empty := swept.reserve.home_empty swept.stands.valid.reserve.2.1
  have at_home : home t.reserve.slots (Handle.ofNat m).index = m % t.reserve.capacity := by
    have index : (Handle.ofNat m).index.toNat = m := UInt32.toNat_ofNat_of_lt small
    rw [home, index, capacity]
  have leads : slotOf t.reserve.slots (.ofNat m) (Handle.ofNat m).index =
      m % t.reserve.capacity := by
    rw [slotOf_of_empty _ (by rw [at_home]; exact empty), at_home]
  have size := swept.reserve.stands.size_eq
  rw [Finset.card_empty] at size
  rw [← leads] at empty
  rw [insert_of_free empty rfl, place, leads, size]
  rfl

theorem Swept.next (swept : Swept t m) (small : m < UInt32.size) :
    (KeyCall.after Handle.index t (.insert (.ofNat m))).size = 1 ∧
      Swept (KeyCall.after Handle.index (KeyCall.after Handle.index t (.insert (.ofNat m)))
        (.delete (.ofNat m))) (m + 1) := by
  have inserted := (swept.stands.insert (.ofNat m)).2
  have deleted := (inserted.delete (.ofNat m)).2
  have swept' := swept.reserve
  have empty := swept'.home_empty swept.stands.valid.reserve.2.1
  simp only [KeyCall.after]
  rw [swept.insert small] at inserted deleted ⊢
  have stored : (t.reserve.slots.setIfInBounds (m % t.reserve.capacity)
      (.occupied (.ofNat m) (Handle.ofNat m).index))[m % t.reserve.capacity]? =
        some (.occupied (.ofNat m) (Handle.ofNat m).index) :=
    (getElem?_write_eq_some empty).2 (.inl ⟨rfl, rfl⟩)
  rw [inserted.delete_eq stored] at deleted ⊢
  rw [Finset.insert_empty, Finset.erase_singleton] at deleted
  refine ⟨rfl, deleted, fun i mark => ?_, ?_⟩
  · simp only [capacity, Array.size_setIfInBounds]
    rcases (getElem?_write_eq_some stored).1 mark with ⟨rfl, -⟩ | ⟨other, written⟩
    · exact ⟨m, Nat.lt_succ_self m, by omega, rfl⟩
    · rcases (getElem?_write_eq_some empty).1 written with ⟨same, -⟩ | ⟨-, before⟩
      · exact absurd same other
      · obtain ⟨k, less, near, same⟩ := swept'.recent i before
        exact ⟨k, by omega, by omega, same⟩
  · have total := swept'.total
    simp only [capacity, Array.size_setIfInBounds] at total ⊢
    omega

end

/-- So many handles are inserted and deleted, and the table never holds more than one. -/
theorem swept_churn {m : Nat} (small : m ≤ UInt32.size) :
    Swept (afterCalls Handle.index (churn m)) m ∧
      ∀ n, (afterCalls Handle.index ((churn m).take n)).size ≤ 1 := by
  induction m with
  | zero => exact ⟨swept_new, fun n => by simp [churn, afterCalls, new, ofCapacity]⟩
  | succ m ih =>
    obtain ⟨swept, few⟩ := ih (Nat.le_of_succ_le small)
    obtain ⟨one, swept'⟩ := swept.next small
    rw [churn_succ, afterCalls_concat, afterCalls_concat]
    refine ⟨swept', fun n => ?_⟩
    rcases Nat.lt_trichotomy n ((churn m).length + 1) with less | rfl | more
    · rw [List.append_assoc, List.take_append_of_le_length (Nat.le_of_lt_succ less)]
      exact few n
    · rw [List.take_left' (by simp), afterCalls_concat]
      exact one.le
    · rw [List.take_of_length_le (by simp; omega), afterCalls_concat, afterCalls_concat,
        swept'.stands.size_eq]
      simp

/-- **Handles held do not bound the capacity.** A table that never holds more than one handle has
sixteen slots after seven different ones came and went, and any number of slots after more. -/
theorem capacity_unbounded_by_size :
    ((∀ n, (afterCalls Handle.index ((churn 7).take n)).size ≤ 1) ∧
      max 8 (4 * 1) < (afterCalls Handle.index (churn 7)).capacity) ∧
    ∀ bound ≤ 2 ^ 31, ∃ calls,
      (∀ n, (afterCalls Handle.index (calls.take n)).size ≤ 1) ∧
        bound < (afterCalls Handle.index calls).capacity := by
  refine ⟨?_, fun bound small => ?_⟩
  · obtain ⟨swept, few⟩ := @swept_churn 7 (by decide)
    have large := swept.le_capacity
    exact ⟨few, by omega⟩
  · obtain ⟨swept, few⟩ := @swept_churn (2 * bound) (by
      rw [UInt32.size]
      omega)
    have large := swept.le_capacity
    exact ⟨churn (2 * bound), few, by omega⟩

end Pseudocode.InternTable
