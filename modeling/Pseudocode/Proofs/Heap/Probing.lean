import Pseudocode.Heap.InternTable
/-!
# Probing a table

A search visits the slots at distance 0, 1, 2 and so on from the home of a hash, round the end of
the table, and ends in front of the first empty slot at the latest. Where there is an empty slot one
lies at a distance below the number of slots, so that many turns are enough and more change nothing.

* `exists_spot`: every slot is at some distance;
* `sought_seek`: where the search for a handle ends;
* `seekText_eq_some`, `seekText_eq_none`, `find?_eq_some`: what the search for a text finds;
* `seek_add`, `seekText_add`: more turns than it takes to reach an empty slot change nothing.
-/
namespace Pseudocode.InternTable

/-! ## Distances -/

section
variable (slots : Array Slot) (hash : UInt32)

def spot (d : Nat) : Nat := (home slots hash + d) % slots.size

theorem spot_zero : spot slots hash 0 = home slots hash := by
  rw [spot, Nat.add_zero, home, Nat.mod_mod]

theorem after_spot (d : Nat) : after slots (spot slots hash d) = spot slots hash (d + 1) := by
  rw [after, spot, spot, Nat.mod_add_mod, Nat.add_assoc]

theorem exists_spot {i : Nat} (inside : i < slots.size) :
    ∃ d < slots.size, spot slots hash d = i := by
  have start : home slots hash < slots.size := Nat.mod_lt _ (Nat.zero_lt_of_lt inside)
  unfold spot
  by_cases ahead : home slots hash ≤ i
  · refine ⟨i - home slots hash, by omega, ?_⟩
    rw [Nat.add_sub_cancel' ahead, Nat.mod_eq_of_lt inside]
  · refine ⟨i + slots.size - home slots hash, by omega, ?_⟩
    have round : home slots hash + (i + slots.size - home slots hash) = i + slots.size := by omega
    rw [round, Nat.add_mod_right, Nat.mod_eq_of_lt inside]

end

section
variable {slots : Array Slot} {hash : UInt32}

/-- Some slot at a distance from `d` on, but before `last`, is empty. -/
def EndsWithin (slots : Array Slot) (hash : UInt32) (d last : Nat) : Prop :=
  ∃ e, d ≤ e ∧ e < last ∧ slots[spot slots hash e]? = some .empty

theorem endsWithin_of_empty (room : ∃ i : Nat, slots[i]? = some .empty) :
    EndsWithin slots hash 0 (0 + slots.size) := by
  obtain ⟨i, found⟩ := room
  obtain ⟨d, near, rfl⟩ := exists_spot slots hash (Array.getElem?_eq_some_iff.1 found).1
  exact ⟨d, Nat.zero_le d, by omega, found⟩

/-- A search that goes on over a slot ends behind it. -/
theorem EndsWithin.succ {d turns : Nat} (ends : EndsWithin slots hash d (d + (turns + 1)))
    (more : slots[spot slots hash d]? ≠ some .empty) :
    EndsWithin slots hash (d + 1) (d + 1 + turns) := by
  obtain ⟨e, from_d, near, found⟩ := ends
  have different : e ≠ d := by
    intro same
    subst same
    exact more found
  exact ⟨e, by omega, by omega, found⟩

/-- Where a search ends there are slots, so it never leaves them. -/
theorem EndsWithin.getElem?_ne_none {d last : Nat} (ends : EndsWithin slots hash d last) (e : Nat) :
    slots[spot slots hash e]? ≠ none := by
  obtain ⟨_, _, _, found⟩ := ends
  have some_slot := Nat.zero_lt_of_lt (Array.getElem?_eq_some_iff.1 found).1
  rw [ne_eq, Array.getElem?_eq_none_iff, Nat.not_le]
  exact Nat.mod_lt _ some_slot

/-! ## The search for a handle -/

/-- No slot before the distance is empty or holds the handle. -/
def Clear (slots : Array Slot) (key : Handle) (hash : UInt32) (d : Nat) : Prop :=
  ∀ e < d, slots[spot slots hash e]? ≠ some .empty ∧
    ∀ h, slots[spot slots hash e]? ≠ some (.occupied key h)

/-- The slot where the search for a handle ends: the one that holds it; or the first empty slot or
a mark before it, and then no slot before the empty one holds the handle. -/
inductive Sought (slots : Array Slot) (key : Handle) (hash : UInt32) : Nat → Prop where
  | held {d : Nat} {h : UInt32} (clear : Clear slots key hash d)
    (here : slots[spot slots hash d]? = some (.occupied key h)) :
    Sought slots key hash (spot slots hash d)
  | free {d m : Nat} (clear : Clear slots key hash d)
    (last : slots[spot slots hash d]? = some .empty) (before : m ≤ d)
    (free : slots[spot slots hash m]? = some .tombstone ∨ m = d) :
    Sought slots key hash (spot slots hash m)

theorem Clear.succ {key : Handle} {d : Nat} (clear : Clear slots key hash d)
    (more : slots[spot slots hash d]? ≠ some .empty)
    (other : ∀ h, slots[spot slots hash d]? ≠ some (.occupied key h)) :
    Clear slots key hash (d + 1) := by
  intro e before
  rcases Nat.lt_succ_iff_lt_or_eq.1 before with before | rfl
  · exact clear e before
  · exact ⟨more, other⟩

/-- Where the search ends, by induction on the turns. A mark passed is kept in mind. -/
theorem sought_seek {key : Handle} : ∀ {turns d : Nat} {mark : Option Nat},
    Clear slots key hash d → EndsWithin slots hash d (d + turns) →
    (∀ i, mark = some i → ∃ m < d, i = spot slots hash m ∧ slots[i]? = some .tombstone) →
    Sought slots key hash (seek slots key turns (spot slots hash d) mark)
  | 0, d, mark, clear, ends, marked => by
    obtain ⟨e, from_d, near, -⟩ := ends
    omega
  | turns + 1, d, mark, clear, ends, marked => by
    rw [seek]
    split
    · rename_i none
      exact absurd none (ends.getElem?_ne_none d)
    · rename_i here
      cases mark with
      | none => exact .free clear here (Nat.le_refl d) (.inr rfl)
      | some i =>
        obtain ⟨m, before, rfl, mark⟩ := marked i rfl
        exact .free clear here (Nat.le_of_lt before) (.inl mark)
    · rename_i here
      rw [after_spot]
      refine sought_seek (clear.succ (by simp [here]) (by simp [here]))
        (ends.succ (by simp [here])) fun i same => ?_
      cases mark with
      | none =>
        cases same
        exact ⟨d, Nat.lt_succ_self d, rfl, here⟩
      | some j =>
        cases same
        obtain ⟨m, before, same, mark⟩ := marked i rfl
        exact ⟨m, Nat.lt_succ_of_lt before, same, mark⟩
    · rename_i k h here
      by_cases same : k = key
      · subst same
        rw [if_pos rfl]
        exact .held clear here
      · rw [if_neg same, after_spot]
        refine sought_seek (clear.succ (by simp [here]) (by simp [here, same]))
          (ends.succ (by simp [here])) fun i kept => ?_
        obtain ⟨m, before, mark⟩ := marked i kept
        exact ⟨m, Nat.lt_succ_of_lt before, mark⟩

/-- More turns change nothing. -/
theorem seek_add {key : Handle} {extra : Nat} : ∀ {turns d : Nat} {mark : Option Nat},
    EndsWithin slots hash d (d + turns) →
    seek slots key (turns + extra) (spot slots hash d) mark =
      seek slots key turns (spot slots hash d) mark
  | 0, d, mark, ends => by
    obtain ⟨e, from_d, near, -⟩ := ends
    omega
  | turns + 1, d, mark, ends => by
    rw [Nat.succ_add, seek, seek]
    split
    · rfl
    · rfl
    · rename_i here
      rw [after_spot]
      exact seek_add (ends.succ (by simp [here]))
    · rename_i k h here
      rw [after_spot]
      by_cases same : k = key
      · rw [if_pos same, if_pos same]
      · rw [if_neg same, if_neg same]
        exact seek_add (ends.succ (by simp [here]))

/-! ## The search for a text -/

section
variable {α : Type} [DecidableEq α] {textOf : Handle → Option α} {text : α}

/-- A handle that is found is in a slot under the hash, and has the text. -/
theorem seekText_eq_some {k : Handle} : ∀ {turns d : Nat},
    seekText slots textOf text hash turns (spot slots hash d) = some k →
    ∃ e, slots[spot slots hash e]? = some (.occupied k hash) ∧ textOf k = some text
  | 0, d, found => by cases found
  | turns + 1, d, found => by
    rw [seekText, after_spot] at found
    split at found
    · cases found
    · cases found
    · exact seekText_eq_some found
    · rename_i k' h here
      by_cases same : h = hash ∧ textOf k' = some text
      · rw [if_pos same] at found
        cases found
        obtain ⟨rfl, read⟩ := same
        exact ⟨d, here, read⟩
      · rw [if_neg same] at found
        exact seekText_eq_some found

/-- If none is found the search ended at an empty slot, and passed no handle with the text under the
hash. -/
theorem seekText_eq_none : ∀ {turns d : Nat}, EndsWithin slots hash d (d + turns) →
    seekText slots textOf text hash turns (spot slots hash d) = none →
    ∃ last, slots[spot slots hash last]? = some .empty ∧ ∀ e, d ≤ e → e < last →
      ∀ k, slots[spot slots hash e]? = some (.occupied k hash) → textOf k ≠ some text
  | 0, d, ends, _ => by
    obtain ⟨e, from_d, near, -⟩ := ends
    omega
  | turns + 1, d, ends, missed => by
    rw [seekText, after_spot] at missed
    split at missed
    · rename_i none
      exact absurd none (ends.getElem?_ne_none d)
    · rename_i here
      exact ⟨d, here, fun e from_d near => by omega⟩
    · rename_i here
      obtain ⟨last, empty, other⟩ := seekText_eq_none (ends.succ (by simp [here])) missed
      refine ⟨last, empty, fun e from_d near k stored => ?_⟩
      rcases Nat.eq_or_lt_of_le from_d with rfl | behind
      · rw [here] at stored
        cases stored
      · exact other e behind near k stored
    · rename_i k' h here
      by_cases same : h = hash ∧ textOf k' = some text
      · rw [if_pos same] at missed
        cases missed
      · rw [if_neg same] at missed
        obtain ⟨last, empty, other⟩ := seekText_eq_none (ends.succ (by simp [here])) missed
        refine ⟨last, empty, fun e from_d near k stored => ?_⟩
        rcases Nat.eq_or_lt_of_le from_d with rfl | behind
        · rw [here] at stored
          cases stored
          exact fun read => same ⟨rfl, read⟩
        · exact other e behind near k stored

/-- The slots hold the handle under the hash. -/
def Holds (slots : Array Slot) (key : Handle) (hash : UInt32) : Prop :=
  ∃ i : Nat, slots[i]? = some (.occupied key hash)

/-- What a table finds for a text is held under the hash, and has the text. -/
theorem find?_eq_some {t : InternTable} {k : Handle} (found : t.find? textOf text hash = some k) :
    Holds t.slots k hash ∧ textOf k = some text := by
  unfold find? at found
  split at found
  · cases found
  · rw [← spot_zero] at found
    obtain ⟨e, here, read⟩ := seekText_eq_some found
    exact ⟨⟨_, here⟩, read⟩

/-- More turns change nothing. -/
theorem seekText_add {extra : Nat} : ∀ {turns d : Nat}, EndsWithin slots hash d (d + turns) →
    seekText slots textOf text hash (turns + extra) (spot slots hash d) =
      seekText slots textOf text hash turns (spot slots hash d)
  | 0, d, ends => by
    obtain ⟨e, from_d, near, -⟩ := ends
    omega
  | turns + 1, d, ends => by
    rw [Nat.succ_add, seekText, seekText]
    split
    · rfl
    · rfl
    · rename_i here
      rw [after_spot]
      exact seekText_add (ends.succ (by simp [here]))
    · rename_i k h here
      rw [after_spot]
      by_cases same : h = hash ∧ textOf k = some text
      · rw [if_pos same, if_pos same]
      · rw [if_neg same, if_neg same]
        exact seekText_add (ends.succ (by simp [here]))

end

end

end Pseudocode.InternTable
