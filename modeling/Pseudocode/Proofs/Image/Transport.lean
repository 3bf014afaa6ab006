import Mathlib
import Pseudocode.Proofs.Image.RoundTrip
import Pseudocode.Proofs.Machine.Likeness
/-!
# Carrying a chunk to another heap

An image keeps the constants of a chunk and not its handles. Where the image is loaded, a text that
is interned already keeps its handle there, and handles of one text become one handle. That is all
that changes: the chunk that is loaded has the code and the lines of the first one, alike constants,
and alike runs.

* `Constant.exists_means`, `Constant.means_toValues`: the constants of the image stand for those of
  both chunks;
* `Image.ofChunk_eq_ok`, `Image.decode_encode`, `Image.toChunk_eq_ok`: the way there, step by step;
* `Image.toChunk_of_ofChunk`: a chunk carried to another heap is the same program.
-/
namespace Pseudocode

namespace Constant
variable {heap : Heap}

/-! ## Constants -/

theorem exists_means {v : Value} (live : ∀ r, v = .string r → heap.text? r ≠ none) :
    ∃ a, Means heap v a := by
  cases v with
  | string r =>
    obtain ⟨t, found⟩ := Option.ne_none_iff_exists'.1 (live r rfl)
    exact ⟨_, .text found⟩
  | _ => exact ⟨_, by constructor⟩

/-- Values whose strings are on the heap stand for constants. -/
theorem exists_means_all {vs : List Value} (live : ∀ r, .string r ∈ vs → heap.text? r ≠ none) :
    ∃ cs, List.Forall₂ (Means heap) vs cs := by
  induction vs with
  | nil => exact ⟨[], .nil⟩
  | cons v vs ih =>
    obtain ⟨a, means⟩ := exists_means (v := v) fun r same => live r (by simp [same])
    obtain ⟨cs, all⟩ := ih fun r inside => live r (List.mem_cons_of_mem v inside)
    exact ⟨a :: cs, .cons means all⟩

theorem ofValues_eq_ok {vs : List Value} {cs : List Constant}
    (all : List.Forall₂ (Means heap) vs cs) (index : Nat) : ofValues heap index vs = .ok cs := by
  induction all generalizing index with
  | nil => rfl
  | cons means _ ih =>
    simp [ofValues, means_iff.1 means, ih, Except.map]

theorem grows_toValue (heap : Heap) (c : Constant) : heap.Grows (c.toValue heap).2 := by
  cases c with
  | text t => exact heap.grows_intern (.ofText t true)
  | _ => exact .refl heap

theorem grows_toValues (heap : Heap) (cs : List Constant) : heap.Grows (toValues heap cs).2 := by
  induction cs generalizing heap with
  | nil => exact .refl heap
  | cons c cs ih => exact (grows_toValue heap c).trans (ih _)

theorem means_toValue {c : Constant} (room : (c.toValue heap).2.size ≤ UInt32.size) :
    Means (c.toValue heap).2 (c.toValue heap).1 c := by
  cases c with
  | text t => exact .text (heap.text?_intern (.ofText t true) room)
  | _ => constructor

/-- The values of constants stand for them, when all are on the heap. A text that was interned keeps
its handle while the others are added. -/
theorem means_toValues {cs : List Constant} (room : (toValues heap cs).2.size ≤ UInt32.size) :
    List.Forall₂ (Means (toValues heap cs).2) (toValues heap cs).1 cs := by
  induction cs generalizing heap with
  | nil => exact .nil
  | cons c cs ih =>
    have grows := grows_toValues (c.toValue heap).2 cs
    have first := means_toValue (Nat.le_trans grows.size_le room)
    exact .cons (first.grows grows) (ih room)

/-- Values that stand for the same constants are alike. -/
theorem alike_of_means {heap' : Heap} {vs ws : List Value} {cs : List Constant}
    (left : List.Forall₂ (Means heap) vs cs) (right : List.Forall₂ (Means heap') ws cs) :
    List.Forall₂ (Value.Alike heap heap') vs ws := by
  induction left generalizing ws with
  | nil =>
    cases right
    exact .nil
  | cons means _ ih =>
    cases right with
    | cons means' right => exact .cons ⟨_, means, means'⟩ (ih right)

/-- The text of a constant is that of one of the strings. -/
theorem string_mem_of_text_mem {vs : List Value} {cs : List Constant}
    (all : List.Forall₂ (Means heap) vs cs) {t : String} (inside : .text t ∈ cs) :
    ∃ r, .string r ∈ vs ∧ heap.text? r = some t := by
  induction all with
  | nil => cases inside
  | cons means _ ih =>
    rcases List.mem_cons.1 inside with rfl | inside
    · cases means with
      | text live => exact ⟨_, List.mem_cons_self, live⟩
    · obtain ⟨r, there, live⟩ := ih inside
      exact ⟨r, List.mem_cons_of_mem _ there, live⟩

end Constant

/-! ## Images -/

/-- No more runs than bytes, if each covers one at least. -/
theorem LineRun.length_le_covered {runs : List LineRun} (counted : ∀ r ∈ runs, r.count ≠ 0) :
    runs.length ≤ covered runs := by
  induction runs with
  | nil => exact Nat.le_refl 0
  | cons r runs ih =>
    have others := ih fun r inside => counted r (List.mem_cons_of_mem _ inside)
    have positive : r.count.toNat ≠ 0 :=
      fun zero => counted r List.mem_cons_self (UInt32.toNat_inj.1 zero)
    rw [List.length_cons, covered]
    omega

theorem Chunk.length_lines_le {code : Array UInt8} {lines : Array LineRun}
    (covered : isCoveredBy code lines = true) : lines.size ≤ code.size := by
  simp only [isCoveredBy, Bool.and_eq_true, decide_eq_true_eq, Array.all_eq_true_iff_forall_mem,
    bne_iff_ne] at covered
  rw [← covered.1, ← Array.length_toList]
  exact LineRun.length_le_covered fun r inside => covered.2 r (Array.mem_toList_iff.1 inside)

/-- Whatever of the chunk is written behind its number has a number of 64 bits. -/
structure Chunk.Sized (c : Chunk) (heap : Heap) : Prop where
  code : c.code.size < UInt64.size
  constants : c.constants.size < UInt64.size
  texts : ∀ r t, .string r ∈ c.constants.toList → heap.text? r = some t →
    (Text.bytes t).length < UInt64.size

namespace Image
variable {c : Chunk} {heap : Heap} {constants : List Constant}

theorem ofChunk_eq_ok (all : List.Forall₂ (Means heap) c.constants.toList constants) :
    ofChunk c heap = .ok ⟨c.code.toList, c.lines.toList, constants⟩ := by
  rw [ofChunk, Constant.ofValues_eq_ok all]
  rfl

theorem sized_of_means (sized : c.Sized heap) (covered : Chunk.isCoveredBy c.code c.lines = true)
    (all : List.Forall₂ (Means heap) c.constants.toList constants) :
    Sized ⟨c.code.toList, c.lines.toList, constants⟩ where
  code := sized.code
  lines := Nat.lt_of_le_of_lt (Chunk.length_lines_le covered) sized.code
  constants := all.length_eq ▸ sized.constants
  texts t inside := by
    obtain ⟨r, there, live⟩ := Constant.string_mem_of_text_mem all inside
    exact sized.texts r t there live

theorem decode_encode {image : Image} (sized : image.Sized) : decode image.encode = .ok image := by
  have front := decodeFront_encode sized []
  rw [List.append_nil] at front
  rw [decode, front]
  rfl

theorem toChunk_eq_ok (covered : Chunk.isCoveredBy c.code c.lines = true) (target : Heap) :
    toChunk ⟨c.code.toList, c.lines.toList, constants⟩ target =
      (.ok ⟨c.code, (Constant.toValues target constants).1.toArray, c.lines⟩,
        (Constant.toValues target constants).2) := by
  simp only [toChunk, Chunk.ofParts?, Array.toArray_toList, if_pos covered]

/-- **An image means the same program.** A chunk whose lines cover its code and whose strings are on
its heap is carried to any other heap: its image is made, written, read back and loaded there, and
gives a chunk with the same code and lines, alike constants, and alike runs. -/
theorem toChunk_of_ofChunk (target : Heap) (covered : Chunk.isCoveredBy c.code c.lines = true)
    (live : ∀ r, .string r ∈ c.constants.toList → heap.text? r ≠ none) (sized : c.Sized heap) :
    ∃ image d loaded, ofChunk c heap = .ok image ∧ decode image.encode = .ok image ∧
      image.toChunk target = (.ok d, loaded) ∧ d.code = c.code ∧ d.lines = c.lines ∧
      (loaded.size ≤ UInt32.size →
        List.Forall₂ (Value.Alike heap loaded) c.constants.toList d.constants.toList) ∧
      ∀ s s' : Session, s.heap = heap → s'.heap = loaded → s.limits = s'.limits →
        (s.run c).2.heap.size ≤ UInt32.size → (s'.run d).2.heap.size ≤ UInt32.size →
        Session.EndAlike (s.run c) (s'.run d) := by
  obtain ⟨constants, all⟩ := Constant.exists_means_all live
  have alike (room : (Constant.toValues target constants).2.size ≤ UInt32.size) :=
    Constant.alike_of_means all (Constant.means_toValues room)
  refine ⟨_, _, _, ofChunk_eq_ok all, decode_encode (sized_of_means sized covered all),
    toChunk_eq_ok covered target, rfl, rfl, alike, ?_⟩
  intro s s' same same' limits room room'
  subst same
  -- The run only adds strings, so the constants that were loaded have room.
  have small : s'.heap.size ≤ UInt32.size := Nat.le_trans (s'.grows_run _).size_le room'
  have constants := alike (same' ▸ small)
  rw [← same'] at constants
  exact Session.endAlike_run limits ⟨rfl, rfl, constants⟩ room room'

/-- Two handles of one text become the handle that the text has already on the other heap. -/
theorem toChunk_of_ofChunk_shared :
    let heap := ((Session.new.eval "\"a\" & \"b\"").2.heap.copyString "ab").2
    let target := ((Heap.new.copyString "x").2.copyString "ab").2
    let c : Chunk := ⟨#[0, 0, 0, 1, 14, 21], #[.string ⟨2⟩, .string ⟨3⟩], #[⟨1, 6⟩]⟩
    Chunk.isCoveredBy c.code c.lines = true ∧
      (∀ r, .string r ∈ c.constants.toList → heap.text? r ≠ none) ∧ c.Sized heap ∧
      ∃ image d loaded, ofChunk c heap = .ok image ∧ image.toChunk target = (.ok d, loaded) ∧
        d.constants = #[.string ⟨1⟩, .string ⟨1⟩] ∧
        Session.EndAlike ((Session.start .standard heap).run c)
          ((Session.start .standard loaded).run d) := by
  intro heap target c
  have covered : Chunk.isCoveredBy c.code c.lines = true := by dsimp only [c]; cbv
  have first : heap.text? ⟨2⟩ = some "ab" := by dsimp only [heap]; cbv
  have second : heap.text? ⟨3⟩ = some "ab" := by dsimp only [heap]; cbv
  have texts : ∀ r, .string r ∈ c.constants.toList → heap.text? r = some "ab" := by
    simp [c, first, second]
  have live : ∀ r, .string r ∈ c.constants.toList → heap.text? r ≠ none :=
    fun r inside => by simp [texts r inside]
  have sized : c.Sized heap := by
    refine ⟨by decide, by decide, fun r t inside found => ?_⟩
    obtain rfl : "ab" = t := Option.some.inj ((texts r inside).symm.trans found)
    decide
  obtain ⟨image, d, loaded, made, -, carried, -, -, -, alike⟩ :=
    toChunk_of_ofChunk target covered live sized
  have image_eq : ofChunk c heap =
      .ok ⟨[0, 0, 0, 1, 14, 21], [⟨1, 6⟩], [.text "ab", .text "ab"]⟩ := by
    dsimp only [c, heap]; cbv
  obtain rfl := Except.ok.inj (image_eq.symm.trans made)
  have chunk_eq : (toChunk ⟨[0, 0, 0, 1, 14, 21], [⟨1, 6⟩], [.text "ab", .text "ab"]⟩ target).1 =
      .ok ⟨#[0, 0, 0, 1, 14, 21], #[.string ⟨1⟩, .string ⟨1⟩], #[⟨1, 6⟩]⟩ := by
    dsimp only [target]; cbv
  obtain rfl := Except.ok.inj (chunk_eq.symm.trans (congrArg Prod.fst carried))
  obtain rfl := congrArg Prod.snd carried
  refine ⟨covered, live, sized, _, _, _, made, carried, rfl, alike _ _ rfl rfl rfl ?_ ?_⟩
  · dsimp only [c, heap]; cbv
  · dsimp only [target]; cbv

end Image

end Pseudocode
