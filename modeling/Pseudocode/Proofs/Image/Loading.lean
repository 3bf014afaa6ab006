import Pseudocode.Proofs.Bytecode.LineTable
import Pseudocode.Proofs.Heap.Copying
import Pseudocode.Proofs.Image.Transport
/-!
# Loading an image

The texts of an image are interned, in order, and only then are its lines looked at. So an image
that is refused leaves the same strings on the heap as one that is accepted, and nothing else: there
is no way to take a single string from a heap. An image that is accepted can be had back from the
chunk as long as the heap is not cleared.

* `toChunk_eq`: the heap afterwards, and which images are accepted;
* `toChunk_refused`: what a refused image leaves behind;
* `ofChunk_of_toChunk`: the image of a chunk that was loaded.
-/
namespace Pseudocode

namespace Constant

def text? : Constant → Option String
  | text t => some t
  | _ => none

/-- The texts of constants are interned one after the other, by induction on the constants. -/
theorem heap_toValues (heap : Heap) (cs : List Constant) :
    (toValues heap cs).2 = heap.copyAll (cs.filterMap text?) := by
  induction cs generalizing heap with
  | nil => rfl
  | cons c cs ih => cases c <;> exact ih _

end Constant

namespace Image

/-- The texts among the constants, in order. -/
def texts (image : Image) : List String := image.constants.filterMap Constant.text?

/-- No run is empty, and together they are as long as the code. -/
structure Covered (image : Image) : Prop where
  counted : ∀ r ∈ image.lines, 0 < r.count
  whole : (image.lines.map fun r => r.count.toNat).sum = image.code.length

theorem covered_iff (image : Image) :
    Chunk.isCoveredBy image.code.toArray image.lines.toArray = true ↔ image.Covered := by
  rw [Chunk.isCoveredBy_iff]
  exact ⟨fun given => ⟨given.1, given.2⟩, fun covered => ⟨covered.counted, covered.whole⟩⟩

/-- The chunk of an image with the given values for its constants. -/
def chunk (image : Image) (constants : List Value) : Chunk :=
  ⟨image.code.toArray, constants.toArray, image.lines.toArray⟩

/-- The heap is the same whether the image is accepted or not. -/
theorem toChunk_eq (image : Image) (heap : Heap) :
    image.toChunk heap =
      (if Chunk.isCoveredBy image.code.toArray image.lines.toArray then
        .ok (image.chunk (Constant.toValues heap image.constants).1)
      else .error .lineTable, heap.copyAll image.texts) := by
  rw [texts, ← Constant.heap_toValues]
  simp only [toChunk, Chunk.ofParts?]
  cases Chunk.isCoveredBy image.code.toArray image.lines.toArray <;> rfl

/-- **What a refused image leaves behind.** An image is refused for its lines only. Its texts are on
the heap then as if they had been interned one after the other, and nothing else has changed: the
strings before them are still there, and the heap is what it was just if all of the texts were
interned before. On a heap that was made by calls a string has been added for each text that was not
interned, once and in order, and those texts are found too. -/
theorem toChunk_refused {image : Image} {heap heap' : Heap} {e : ImageError}
    (refused : image.toChunk heap = (.error e, heap')) :
    e = .lineTable ∧ ¬ image.Covered ∧
      heap' = (image.texts.map HeapCall.copyString).foldl Heap.after heap ∧
      (∀ r s, heap.get? r = some s → heap'.get? r = some s) ∧
      (heap' = heap ↔ ∀ t ∈ image.texts, heap.findInterned t ≠ none) ∧
      ∀ capacity past, Reachable capacity past → past.heap = heap → heap'.size ≤ UInt32.size →
        heap'.objects.toList = heap.objects.toList ++
          (image.texts.filter fun t => (heap.findInterned t).isNone).eraseDups.map
            (.ofText · true) ∧
        ∀ t, (heap'.findInterned t).isSome ↔ (heap.findInterned t).isSome ∨ t ∈ image.texts := by
  rw [toChunk_eq] at refused
  obtain ⟨answer, rfl⟩ := Prod.mk.inj refused
  split at answer
  · cases answer
  rename_i uncovered
  cases answer
  refine ⟨rfl, mt image.covered_iff.2 uncovered, rfl,
    fun r s => (heap.grows_copyAll image.texts).get?, Heap.copyAll_eq_self_iff, ?_⟩
  rintro capacity past reachable rfl room
  exact ⟨reachable.inv.objects_copyAll room, reachable.inv.isSome_findInterned_copyAll room⟩

/-- An image without lines, of whose texts one was interned before and one comes twice. -/
theorem toChunk_refused_repeated :
    let image : Image := ⟨[21], [], [.text "a", .integer 7, .text "b", .text "a"]⟩
    let heap := (Heap.new.copyString "b").2
    image.toChunk heap = (.error .lineTable, heap.copyAll ["a", "b", "a"]) ∧
      (heap.copyAll ["a", "b", "a"]).objects.toList = [.ofText "b" true, .ofText "a" true] ∧
      heap.copyAll ["a", "b", "a"] ≠ heap := by
  intro image heap
  have refused : image.toChunk heap = (.error .lineTable, heap.copyAll ["a", "b", "a"]) := by
    decide +kernel
  obtain ⟨-, -, -, -, unchanged, made⟩ := toChunk_refused refused
  have reachable : Reachable 0 ((History.start 0).after (.copyString "b")) :=
    .after _ .start (by decide +kernel)
  obtain ⟨objects, -⟩ := made 0 _ reachable rfl (by decide +kernel)
  refine ⟨refused, objects.trans (by decide +kernel), fun same => ?_⟩
  exact unchanged.1 same "a" (by decide +kernel) (by decide +kernel)

/-- A refused image of one text leaves the text on an empty heap. -/
theorem toChunk_keeps_text :
    let image : Image := ⟨[21], [], [.text "a"]⟩
    (image.toChunk .new).1 = .error .lineTable ∧
      (image.toChunk .new).2.objects = #[.ofText "a" true] ∧
      (image.toChunk .new).2.interned.entries = [(⟨0⟩, textHash "a")] ∧
      (image.toChunk .new).2 ≠ .new := by
  decide +kernel

/-- **An image is had back from its chunk.** An image whose runs are not empty and cover its code is
accepted on every heap. Whatever is interned and joined there afterwards, the strings that were on
the heap before keep their texts. If every string had a handle of its own when the image was loaded
then the image of the chunk is the one that was loaded, texts that come twice or were on the heap
before included. -/
theorem ofChunk_of_toChunk {image : Image} (covered : image.Covered) (heap : Heap) :
    ∃ c loaded, image.toChunk heap = (.ok c, loaded) ∧
      ∀ calls : List HeapCall, .clear ∉ calls → ∀ later, calls.foldl Heap.after loaded = later →
        (∀ r t, heap.text? r = some t → later.text? r = some t) ∧
        (loaded.size ≤ UInt32.size → ofChunk c later = .ok image) := by
  refine ⟨_, _, by rw [toChunk_eq, if_pos (image.covered_iff.2 covered)], ?_⟩
  rintro calls keep later rfl
  have grows := (heap.copyAll image.texts).grows_calls keep
  refine ⟨fun r t live => grows.text? ((heap.grows_copyAll image.texts).text? live), fun room => ?_⟩
  have loaded : List.Forall₂ (Means (heap.copyAll image.texts))
      (Constant.toValues heap image.constants).1 image.constants := by
    have means := @Constant.means_toValues heap image.constants
    rw [Constant.heap_toValues] at means
    exact means room
  have all := loaded.imp fun v c means => means.grows grows
  exact ofChunk_eq_ok all

/-- A text that comes twice and is a range of a source on the heap already, the empty text, and a
number that is none with a payload. -/
theorem ofChunk_of_toChunk_repeated :
    let image : Image := ⟨[0, 0, 21], [⟨7, 2⟩, ⟨9, 1⟩],
      [.text "ab", .text "", .real ⟨0x7FF0000000000001⟩, .text "ab"]⟩
    let heap := (Heap.new.after (.refString "xab" 1 2)).after (.concat ⟨0⟩ ⟨0⟩)
    let calls : List HeapCall := [.copyString "", .concat ⟨0⟩ ⟨1⟩, .refString "é" 0 2]
    image.Covered ∧ .clear ∉ calls ∧ ∃ c loaded, image.toChunk heap = (.ok c, loaded) ∧
      c.constants = #[.string ⟨0⟩, .string ⟨2⟩, .real ⟨0x7FF0000000000001⟩, .string ⟨0⟩] ∧
      loaded.size = 3 ∧ (calls.foldl Heap.after loaded).size = 5 ∧
      (calls.foldl Heap.after loaded).text? ⟨1⟩ = some "abab" ∧
      ofChunk c (calls.foldl Heap.after loaded) = .ok image := by
  intro image heap calls
  have covered : image.Covered := ⟨by decide, by decide⟩
  have keep : .clear ∉ calls := by decide
  obtain ⟨c, loaded, made, back⟩ := ofChunk_of_toChunk covered heap
  obtain ⟨texts, again⟩ := back calls keep _ rfl
  obtain rfl : (image.toChunk heap).2 = loaded := congrArg Prod.snd made
  have small : (image.toChunk heap).2.size = 3 := by decide +kernel
  have size : (calls.foldl Heap.after (image.toChunk heap).2).size = 5 := by decide +kernel
  have constants : (image.toChunk heap).1.toOption.map Chunk.constants =
      some #[.string ⟨0⟩, .string ⟨2⟩, .real ⟨0x7FF0000000000001⟩, .string ⟨0⟩] := by
    decide +kernel
  rw [made] at constants
  refine ⟨covered, keep, c, _, made, Option.some.inj constants, small, size,
    texts _ _ (by decide +kernel), again ?_⟩
  rw [small]
  decide

end Image

end Pseudocode
