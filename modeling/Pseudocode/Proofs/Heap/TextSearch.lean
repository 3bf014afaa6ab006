import Pseudocode.Heap.Basic
import Pseudocode.Proofs.Heap.TableSet
import Pseudocode.Proofs.Text.Encoding
/-!
# Searching tables for a text

A table is searched for the handle of a string with given bytes. The search does not know the
handle, so it passes handles that only share the hash, and where several strings have the text it
takes the first that it meets. It compares under one hash only, so it is right as long as every
handle is stored under the hash of its string. Then no history of the table misleads it, whatever
marks it passes and however often the table grew.

* `seekText_congr`: strings may be compared for their bytes;
* `StandsFor.mem_of_find?`, `StandsFor.ne_of_find?_eq_none`: what a search tells of the set;
* `find?_bytes_of_calls`: searches after any number of calls.
-/
namespace Pseudocode

/-- The bytes of the string that a handle names in a list of strings. -/
def StringObject.bytesOf (objects : Array StringObject) (r : Handle) : Option (List UInt8) :=
  objects[r.index.toNat]?.map fun s => Text.bytes s.text

namespace InternTable

section
variable {α β : Type} [DecidableEq α] [DecidableEq β] {textOf : Handle → Option α} {text : α}
  {textOf' : Handle → Option β} {text' : β} {hash : UInt32}

/-- Nothing counts in a search but which handles have the text. -/
theorem seekText_congr {slots : Array Slot}
    (same : ∀ k, textOf k = some text ↔ textOf' k = some text') : ∀ turns i,
    seekText slots textOf text hash turns i = seekText slots textOf' text' hash turns i
  | 0, _ => rfl
  | turns + 1, i => by
    rw [seekText, seekText]
    split
    · rfl
    · rfl
    · exact seekText_congr same turns _
    · simp only [same, seekText_congr same turns]

theorem find?_congr (t : InternTable)
    (same : ∀ k, textOf k = some text ↔ textOf' k = some text') :
    t.find? textOf text hash = t.find? textOf' text' hash := by
  rw [find?, find?, seekText_congr same]

/-! ## Searches and sets -/

variable {hashOf : Handle → UInt32} {t : InternTable} {s : Finset Handle} {key : Handle}

/-- A handle that is found is a member with the text. -/
theorem StandsFor.mem_of_find? (stands : StandsFor hashOf t s)
    (found : t.find? textOf text hash = some key) : key ∈ s ∧ textOf key = some text := by
  obtain ⟨held, read⟩ := find?_eq_some found
  exact ⟨((stands.holds key hash).1 held).1, read⟩

/-- If none is found then no member has the text, provided that the text has the hash wherever it
is. -/
theorem StandsFor.ne_of_find?_eq_none (stands : StandsFor hashOf t s)
    (hashed : textOf key = some text → hashOf key = hash)
    (missed : t.find? textOf text hash = none) (inside : key ∈ s) : textOf key ≠ some text := by
  intro read
  have held : Holds t.slots key hash := (stands.holds key hash).2 ⟨inside, (hashed read).symm⟩
  exact stands.valid.find?_eq_none missed held read

end

/-! ## Strings -/

section
variable {objects : Array StringObject}

theorem bytesOf_eq_some_iff {r : Handle} {bytes : List UInt8} :
    StringObject.bytesOf objects r = some bytes ↔
      ∃ s, objects[r.index.toNat]? = some s ∧ Text.bytes s.text = bytes := by
  rw [StringObject.bytesOf, Option.map_eq_some_iff]

/-- To search for a text is to search for its bytes. -/
theorem find?_text (t : InternTable) (text : String) :
    t.find? (fun r => objects[r.index.toNat]?.map StringObject.text) text (textHash text) =
      t.find? (StringObject.bytesOf objects) (Text.bytes text) (fnv1a (Text.bytes text)) := by
  refine t.find?_congr fun r => ?_
  rw [Option.map_eq_some_iff, bytesOf_eq_some_iff]
  constructor
  · rintro ⟨s, found, rfl⟩
    exact ⟨s, found, rfl⟩
  · rintro ⟨s, found, same⟩
    exact ⟨s, found, Text.bytes_injective same⟩

/-- **Strings are found by their bytes.** Some tables that start empty, with any capacities, are
used together, and every string is stored under the hash of its text. Then a search for any bytes
comes to an end, gives a handle that was put in and not deleted since, of a string with these bytes,
and gives none only if there is no such handle. A search for a text is a search for its bytes. -/
theorem find?_bytes_of_calls {hashOf : Handle → UInt32}
    (hashed : ∀ r s, objects[r.index.toNat]? = some s → hashOf r = textHash s.text)
    (capacities : Nat → Nat) (calls : List TableCall) (n : Nat) :
    let t := (TableCall.answers (TableCall.onTables hashOf)
      (fun n => ofCapacity (capacities n)) calls).2 n
    let members := (TableCall.answers TableCall.onSets (fun _ => ∅) calls).2 n
    let bytesOf := StringObject.bytesOf objects
    (∀ bytes r, t.find? bytesOf bytes (fnv1a bytes) = some r →
      r ∈ members ∧ bytesOf r = some bytes) ∧
    (∀ bytes, t.find? bytesOf bytes (fnv1a bytes) = none →
      ∀ r ∈ members, bytesOf r ≠ some bytes) ∧
    SearchesEnd t.slots ∧
    ∀ text, t.find? (fun r => objects[r.index.toNat]?.map StringObject.text) text (textHash text) =
      t.find? bytesOf (Text.bytes text) (fnv1a (Text.bytes text)) := by
  intro t members bytesOf
  have stands : StandsFor hashOf t members :=
    (standsFor_calls calls fun n => standsFor_ofCapacity hashOf (capacities n)).2 n
  refine ⟨fun bytes r found => stands.mem_of_find? found, fun bytes missed r inside => ?_,
    searchesEnd_of_empty stands.valid.exists_empty, t.find?_text⟩
  refine stands.ne_of_find?_eq_none (fun read => ?_) missed inside
  obtain ⟨s, found, rfl⟩ := bytesOf_eq_some_iff.1 read
  exact hashed r s found

/-- Two texts with one hash, one of them in two strings. The string of the first is deleted, and its
mark is taken by the second string of the other, in front of the first. -/
theorem find?_bytes_of_calls_collision :
    let objects : Array StringObject :=
      #[.ofText "costarring" true, .ofText "liquid" true, .ofText "liquid" false]
    let hashOf (r : Handle) : UInt32 :=
      (objects[r.index.toNat]?.map fun s => textHash s.text).getD 0
    let calls : List TableCall :=
      [.insert 0 ⟨0⟩, .insert 0 ⟨1⟩, .delete 0 ⟨0⟩, .insert 0 ⟨2⟩, .addAll 1 0]
    let t := (TableCall.answers (TableCall.onTables hashOf) (fun _ => ofCapacity 0) calls).2 1
    let members := (TableCall.answers TableCall.onSets (fun _ => ∅) calls).2 1
    let bytesOf := StringObject.bytesOf objects
    (∀ r s, objects[r.index.toNat]? = some s → hashOf r = textHash s.text) ∧
      textHash "costarring" = textHash "liquid" ∧
      (t.find? bytesOf (Text.bytes "liquid") (textHash "liquid") = some ⟨2⟩ ∧ ⟨2⟩ ∈ members) ∧
      (t.find? bytesOf (Text.bytes "costarring") (textHash "costarring") = none ∧
        ∀ r ∈ members, bytesOf r ≠ some (Text.bytes "costarring")) := by
  intro objects hashOf calls t members bytesOf
  have hashed : ∀ r s, objects[r.index.toNat]? = some s → hashOf r = textHash s.text := by
    intro r s found
    simp [hashOf, found]
  have found : t.find? bytesOf (Text.bytes "liquid") (textHash "liquid") = some ⟨2⟩ := by
    decide +kernel
  have missed : t.find? bytesOf (Text.bytes "costarring") (textHash "costarring") = none := by
    decide +kernel
  obtain ⟨sound, complete, -⟩ := find?_bytes_of_calls hashed (fun _ => 0) calls 1
  exact ⟨hashed, by decide +kernel, ⟨found, (sound _ _ found).1⟩, missed, complete _ missed⟩

end

end InternTable

end Pseudocode
