import Pseudocode.Heap.Basic
import Pseudocode.Proofs.Heap.Probing
/-!
# Growing heaps

No operation but `clear` changes a string that is on the heap: the strings before it are a front
part of the strings after it (`Grows`), so every handle keeps its string. A new string has its own
text under its handle while there are no more than 2^32 strings.

* `grows_intern`, `grows_concat`: what interning and joining leave alone;
* `text?_intern`: the handle that interning gives has the text asked for.
-/
namespace Pseudocode.Heap

/-- The strings of `h` are a front part of the strings of `h'`. -/
def Grows (h h' : Heap) : Prop := h.objects.toList <+: h'.objects.toList

theorem Grows.refl (h : Heap) : h.Grows h := List.prefix_rfl

theorem Grows.trans {a b c : Heap} (ab : a.Grows b) (bc : b.Grows c) : a.Grows c :=
  List.IsPrefix.trans ab bc

theorem Grows.size_le {h h' : Heap} (grows : h.Grows h') : h.size ≤ h'.size := by
  simpa [size] using grows.length_le

theorem Grows.get? {h h' : Heap} (grows : h.Grows h') {r : Handle} {s : StringObject}
    (found : h.get? r = some s) : h'.get? r = some s := by
  rw [Heap.get?, ← Array.getElem?_toList] at found ⊢
  obtain ⟨more, whole⟩ := grows
  rw [← whole, List.getElem?_append_left (List.getElem?_eq_some_iff.1 found).1]
  exact found

theorem Grows.live {h h' : Heap} (grows : h.Grows h') {r : Handle} (live : h.get? r ≠ none) :
    h'.get? r ≠ none := by
  obtain ⟨s, found⟩ := Option.ne_none_iff_exists'.1 live
  rw [grows.get? found]
  exact Option.some_ne_none s

theorem Grows.text? {h h' : Heap} (grows : h.Grows h') {r : Handle} {t : String}
    (found : h.text? r = some t) : h'.text? r = some t := by
  obtain ⟨s, live, rfl⟩ := Option.map_eq_some_iff.1 found
  rw [Heap.text?, grows.get? live]
  rfl

theorem Grows.isSome_text? {h h' : Heap} (grows : h.Grows h') {r : Handle}
    (live : (h.text? r).isSome) : (h'.text? r).isSome := by
  obtain ⟨t, found⟩ := Option.isSome_iff_exists.1 live
  rw [grows.text? found]
  rfl

theorem grows_push (h : Heap) (object : StringObject) : h.Grows (h.push object).2 := by
  simp [Grows, push]

theorem size_push (h : Heap) (object : StringObject) : (h.push object).2.size = h.size + 1 := by
  simp [push, size]

/-- A heap that is not too large with a new string was small before. -/
theorem size_lt_of_push {h : Heap} {object : StringObject}
    (room : (h.push object).2.size ≤ UInt32.size) : h.size < UInt32.size := by
  rw [size_push] at room
  exact room

/-- The heap after a string was pushed has its strings, whatever became of the table. -/
theorem text?_push (h : Heap) (object : StringObject) (table : InternTable)
    (room : h.size < UInt32.size) :
    Heap.text? { (h.push object).2 with interned := table } (h.push object).1 =
      some object.text := by
  have found := h.get?_push object room
  rw [Heap.get?] at found
  rw [Heap.text?, Heap.get?, found]
  rfl

/-- The handle of a new string names a string, if not the new one, however large the heap is. -/
theorem isSome_text?_push (h : Heap) (object : StringObject) (table : InternTable) :
    (Heap.text? { (h.push object).2 with interned := table } (h.push object).1).isSome := by
  have inside : (Handle.ofNat h.objects.size).index.toNat < (h.push object).2.objects.size := by
    rw [push, Array.size_push, Handle.ofNat, UInt32.toNat_ofNat']
    exact Nat.lt_succ_of_le (Nat.mod_le _ _)
  have found := Array.getElem?_eq_getElem inside
  rw [Heap.text?, Heap.get?, Option.isSome_map]
  exact Option.isSome_iff_exists.2 ⟨_, found⟩

/-- An interned string that is found has the text that was searched for. -/
theorem text?_of_findInterned {h : Heap} {text : String} {r : Handle}
    (found : h.findInterned text = some r) : h.text? r = some text :=
  (InternTable.find?_eq_some found).2

theorem intern_of_find {h : Heap} {object : StringObject} {r : Handle}
    (found : h.findInterned object.text = some r) : h.intern object = (r, h) := by
  rw [intern, found]

theorem intern_of_find_none {h : Heap} {object : StringObject}
    (absent : h.findInterned object.text = none) :
    h.intern object = ((h.push object).1, { (h.push object).2 with
      interned := (h.interned.insert (h.push object).1 object.hash).2 }) := by
  rw [intern, absent]
  rfl

theorem grows_intern (h : Heap) (object : StringObject) : h.Grows (h.intern object).2 := by
  cases found : h.findInterned object.text with
  | some r => rw [intern_of_find found]; exact .refl h
  | none => rw [intern_of_find_none found]; exact grows_push h object

theorem size_intern_le (h : Heap) (object : StringObject) :
    (h.intern object).2.size ≤ h.size + 1 := by
  cases found : h.findInterned object.text with
  | some r => rw [intern_of_find found]; exact Nat.le_succ _
  | none => rw [intern_of_find_none found]; exact Nat.le_of_eq (h.size_push object)

theorem text?_intern (h : Heap) (object : StringObject)
    (room : (h.intern object).2.size ≤ UInt32.size) :
    (h.intern object).2.text? (h.intern object).1 = some object.text := by
  cases found : h.findInterned object.text with
  | some r => rw [intern_of_find found]; exact text?_of_findInterned found
  | none =>
    rw [intern_of_find_none found] at room ⊢
    exact text?_push h object _ (size_lt_of_push room)

theorem isSome_text?_intern (h : Heap) (object : StringObject) :
    ((h.intern object).2.text? (h.intern object).1).isSome := by
  cases found : h.findInterned object.text with
  | some r =>
    rw [intern_of_find found, text?_of_findInterned found]
    rfl
  | none =>
    rw [intern_of_find_none found]
    exact isSome_text?_push h object _

theorem refString?_eq_some_iff {h h' : Heap} {source : String} {start length : Nat} {r : Handle} :
    h.refString? source start length = some (r, h') ↔
      ∃ text, Text.slice? source start length = some text ∧
        h.intern (.ofText text false) = (r, h') := by
  rw [refString?, Option.map_eq_some_iff]

/-- Two strings are joined just if both are on the heap. -/
theorem concat?_eq_some_iff {h h' : Heap} {a b r : Handle} :
    h.concat? a b = some (r, h') ↔
      ∃ x y, h.text? a = some x ∧ h.text? b = some y ∧
        h.push (.ofText (x ++ y) true) = (r, h') := by
  cases left : h.text? a <;> cases right : h.text? b <;> simp [concat?, left, right]

theorem grows_concat {h h' : Heap} {a b r : Handle} (joined : h.concat? a b = some (r, h')) :
    h.Grows h' := by
  obtain ⟨x, y, -, -, pushed⟩ := concat?_eq_some_iff.1 joined
  have := h.grows_push (.ofText (x ++ y) true)
  rwa [pushed] at this

theorem text?_concat {h h' : Heap} {a b r : Handle} {x y : String}
    (joined : h.concat? a b = some (r, h')) (left : h.text? a = some x)
    (right : h.text? b = some y) (room : h'.size ≤ UInt32.size) :
    h'.text? r = some (x ++ y) := by
  obtain ⟨x', y', foundX, foundY, pushed⟩ := concat?_eq_some_iff.1 joined
  obtain rfl : x' = x := Option.some.inj (foundX.symm.trans left)
  obtain rfl : y' = y := Option.some.inj (foundY.symm.trans right)
  obtain ⟨rfl, rfl⟩ := Prod.mk.inj pushed
  exact text?_push h (.ofText (x' ++ y') true) h.interned (size_lt_of_push room)

end Pseudocode.Heap
