import Pseudocode.Proofs.Heap.Interning
/-!
# Interning many texts

Texts that are interned one after the other add a string for each of them that was not interned, at
its first place among them, and change nothing else. Calls that do not clear the heap only add
strings.

* `Heap.grows_calls`: calls that do not clear the heap;
* `Heap.Follows`: what such calls make of a heap;
* `Reachable.follows`: the heap that is made has a history, which goes on from the one before;
* `Heap.copyAll_eq_self_iff`: when interning texts changes nothing;
* `History.Inv.objects_copyAll`, `History.Inv.isSome_findInterned_copyAll`: what it changes
  otherwise.
-/
namespace Pseudocode

namespace Heap

theorem grows_after (h : Heap) {call : HeapCall} (keeps : call ≠ .clear) : h.Grows (h.after call) :=
  History.grows_after ⟨h, [], []⟩ keeps

/-- Calls that do not clear the heap leave its strings alone, by induction on the calls. -/
theorem grows_calls (h : Heap) {calls : List HeapCall} (keep : .clear ∉ calls) :
    h.Grows (calls.foldl after h) := by
  induction calls generalizing h with
  | nil => exact .refl h
  | cons call calls ih =>
    rw [List.mem_cons, not_or] at keep
    exact (h.grows_after (Ne.symm keep.1)).trans (ih _ keep.2)

/-- Some calls that do not clear the first heap make the second one of it. -/
def Follows (h h' : Heap) : Prop :=
  ∃ calls : List HeapCall, .clear ∉ calls ∧ calls.foldl after h = h'

theorem Follows.refl (h : Heap) : h.Follows h := ⟨[], List.not_mem_nil, rfl⟩

theorem Follows.trans {a b c : Heap} (ab : a.Follows b) (bc : b.Follows c) : a.Follows c := by
  obtain ⟨calls, keep, rfl⟩ := ab
  obtain ⟨more, keep', rfl⟩ := bc
  refine ⟨calls ++ more, fun inside => ?_, List.foldl_append⟩
  exact (List.mem_append.1 inside).elim keep keep'

theorem Follows.grows {h h' : Heap} (follows : h.Follows h') : h.Grows h' := by
  obtain ⟨calls, keep, rfl⟩ := follows
  exact h.grows_calls keep

theorem follows_after (h : Heap) {call : HeapCall} (keeps : call ≠ .clear) :
    h.Follows (h.after call) :=
  ⟨[call], by simpa using Ne.symm keeps, rfl⟩

/-- A range of a source that is text is interned. -/
theorem after_refString {h : Heap} {source text : String} {start length : Nat}
    (cut : Text.slice? source start length = some text) :
    h.after (.refString source start length) = (h.intern (.ofText text false)).2 := by
  simp only [after, History.after, refString?, cut, Option.map_some]
  rfl

/-- The heap with some texts interned, one after the other. -/
def copyAll (h : Heap) (texts : List String) : Heap :=
  (texts.map HeapCall.copyString).foldl after h

theorem copyAll_cons (h : Heap) (t : String) (texts : List String) :
    h.copyAll (t :: texts) = (h.copyString t).2.copyAll texts := rfl

theorem grows_copyAll (h : Heap) (texts : List String) : h.Grows (h.copyAll texts) :=
  h.grows_calls (by simp)

/-- Interning texts changes nothing just if all of them are found. -/
theorem copyAll_eq_self_iff {h : Heap} {texts : List String} :
    h.copyAll texts = h ↔ ∀ t ∈ texts, h.findInterned t ≠ none := by
  induction texts with
  | nil => simp [copyAll]
  | cons t texts ih =>
    rw [copyAll_cons, List.forall_mem_cons]
    cases found : h.findInterned t with
    | some r =>
      rw [copyString, intern_of_find found, ih]
      simp
    | none =>
      -- one string more is not taken away again
      refine iff_of_false (fun same => ?_) (fun given => given.1 rfl)
      have more := ((h.copyString t).2.grows_copyAll texts).size_le
      rw [same, copyString, intern_of_find_none found] at more
      have added := h.size_push (.ofText t true)
      change (h.push _).2.size ≤ h.size at more
      omega

end Heap

theorem History.heap_after (past : History) (call : HeapCall) :
    (past.after call).heap = past.heap.after call := by
  cases call with
  | copyString | clear => rfl
  | refString source start length =>
    dsimp only [Heap.after, History.after]
    cases Text.slice? source start length <;> cases past.heap.refString? source start length <;> rfl
  | concat a b =>
    dsimp only [Heap.after, History.after]
    cases past.heap.concat? a b <;> rfl

theorem History.interned_after (past : History) {call : HeapCall} (keeps : call ≠ .clear) :
    past.interned <+: (past.after call).interned := by
  rcases past.after_cases call with ⟨cleared, -⟩ | ⟨text, owned, made⟩ | ⟨text, made⟩ | made
  · exact absurd cleared keeps
  · rw [made]
    exact List.prefix_append _ _
  · have same : (past.after call).interned = past.interned := by rw [made]
    exact same ▸ List.prefix_rfl
  · exact made.symm ▸ List.prefix_rfl

/-- What calls make of the heap of a history is the heap of a history that goes on from it, by
induction on the calls. -/
theorem Reachable.follows {capacity : Nat} {past : History} (reachable : Reachable capacity past)
    {h : Heap} (follows : past.heap.Follows h) (room : h.size ≤ UInt32.size) :
    ∃ later, Reachable capacity later ∧ later.heap = h ∧ past.interned <+: later.interned := by
  obtain ⟨calls, keep, made⟩ := follows
  induction calls generalizing past with
  | nil => exact ⟨past, reachable, made, List.prefix_rfl⟩
  | cons call calls ih =>
    rw [List.mem_cons, not_or] at keep
    have keeps : call ≠ .clear := Ne.symm keep.1
    rw [List.foldl_cons, ← past.heap_after] at made
    have small := ((past.after call).heap.grows_calls keep.2).size_le
    rw [made] at small
    obtain ⟨later, reached, same, more⟩ :=
      ih (reachable.after call (Nat.le_trans small room)) keep.2 made
    exact ⟨later, reached, same, (past.interned_after keeps).trans more⟩

namespace History
variable {past : History}

theorem heap_copyString (past : History) (text : String) :
    (past.after (.copyString text)).heap = (past.heap.copyString text).2 := rfl

/-- The first time a text is interned its handle is found for it from then on. -/
theorem Inv.findInterned_copyString (inv : past.Inv) {text : String}
    (room : (past.heap.copyString text).2.size ≤ UInt32.size) (t : String) :
    (past.heap.copyString text).2.findInterned t = (past.heap.findInterned t).or
      (if t = text then some (past.heap.copyString text).1 else none) := by
  have inv' : (past.after (.copyString text)).Inv := inv.after _ room
  have before : past.heap.findInterned t = past.interned.lookup t :=
    Option.ext fun r => inv.findInterned
  rw [before, ← lookup_append_single]
  exact Option.ext fun r => inv'.findInterned

/-- What is added when texts are interned: a string for each that was not found, once. -/
theorem Inv.objects_copyAll (inv : past.Inv) {texts : List String}
    (room : (past.heap.copyAll texts).size ≤ UInt32.size) :
    (past.heap.copyAll texts).objects.toList = past.heap.objects.toList ++
      (texts.filter fun t => (past.heap.findInterned t).isNone).eraseDups.map (.ofText · true) := by
  induction texts generalizing past with
  | nil => simp [Heap.copyAll]
  | cons text texts ih =>
    rw [Heap.copyAll_cons] at room ⊢
    have small : (past.heap.copyString text).2.size ≤ UInt32.size :=
      Nat.le_trans ((past.heap.copyString text).2.grows_copyAll texts).size_le room
    cases found : past.heap.findInterned text with
    | some r =>
      have same : past.heap.copyString text = (r, past.heap) := Heap.intern_of_find found
      rw [same] at room ⊢
      rw [ih inv room, List.filter_cons_of_neg (by simp [found])]
    | none =>
      -- those that are added behind it are the others that were not found
      have others (t : String) : ((past.heap.copyString text).2.findInterned t).isNone =
          (!t == text && (past.heap.findInterned t).isNone) := by
        rw [inv.findInterned_copyString small]
        by_cases same : t = text <;> simp [same]
      have added := ih (inv.after (.copyString text) small) room
      simp only [heap_copyString, others] at added
      have pushed : (past.heap.copyString text).2.objects.toList =
          past.heap.objects.toList ++ [.ofText text true] := by
        rw [Heap.copyString, Heap.intern_of_find_none found]
        exact Array.toList_push
      rw [added, pushed, List.filter_cons_of_pos (by simp [found]), List.eraseDups_cons,
        List.filter_filter, List.map_cons, List.append_assoc, List.singleton_append]

/-- The texts that are found afterwards. -/
theorem Inv.isSome_findInterned_copyAll (inv : past.Inv) {texts : List String}
    (room : (past.heap.copyAll texts).size ≤ UInt32.size) (t : String) :
    ((past.heap.copyAll texts).findInterned t).isSome ↔
      (past.heap.findInterned t).isSome ∨ t ∈ texts := by
  induction texts generalizing past with
  | nil => simp [Heap.copyAll]
  | cons text texts ih =>
    rw [Heap.copyAll_cons] at room ⊢
    have small : (past.heap.copyString text).2.size ≤ UInt32.size :=
      Nat.le_trans ((past.heap.copyString text).2.grows_copyAll texts).size_le room
    have others := ih (inv.after (.copyString text) small) room
    rw [heap_copyString] at others
    rw [others, inv.findInterned_copyString small, List.mem_cons]
    by_cases same : t = text <;> simp [same]

end History

end Pseudocode
