import Mathlib.Data.List.Forall2
import Mathlib.Data.List.Perm.Subperm
import Pseudocode.Proofs.Heap.Interning
import Pseudocode.Proofs.Machine.Likeness
/-!
# Compiling on different heaps

The code of a source does not depend on the heap, and its constants are alike on all heaps: a string
is another handle, but has the same text. On a heap that was empty before, all strings are interned,
so no two have the same text; a heap that had more before has all these texts too, once they were
interned there, and so no fewer strings (`Heap.Below`).

* `Heap.Below.intern`: interning a text keeps a heap below another;
* `Expr.alike_compile`: the code of an expression, by induction on the expression;
* `alike_compileSource`: a source compiled on an empty heap and on any other.
-/
namespace Pseudocode

/-! ## Heaps -/

namespace Heap

/-- The texts of the strings, in the order in which they were added. -/
def texts (h : Heap) : List String := h.objects.toList.map StringObject.text

theorem length_texts (h : Heap) : h.texts.length = h.size := by
  simp [texts, size]

theorem mem_texts {h : Heap} {r : Handle} {t : String} (live : h.text? r = some t) :
    t ∈ h.texts := by
  obtain ⟨s, found, rfl⟩ := Option.map_eq_some_iff.1 live
  exact List.mem_map_of_mem (Array.mem_toList_iff.2 (Array.mem_of_getElem? found))

theorem Grows.texts_subset {h h' : Heap} (grows : h.Grows h') : h.texts ⊆ h'.texts :=
  List.map_subset _ grows.subset

/-- Every string of `h` is interned, and no two have the same text; each of its texts is also that
of a string of `h'`. -/
structure Below (h h' : Heap) : Prop where
  nodup : h.texts.Nodup
  subset : h.texts ⊆ h'.texts
  interned : ∃ past : History, past.heap = h ∧ past.Inv ∧
    ∀ t ∈ h.texts, past.interned.lookup t ≠ none

theorem Below.size_le {h h' : Heap} (below : h.Below h') : h.size ≤ h'.size := by
  rw [← length_texts, ← length_texts]
  exact (below.nodup.subperm below.subset).length_le

theorem below_new (h : Heap) : new.Below h :=
  ⟨List.nodup_nil, List.nil_subset _, .start 0, rfl, History.inv_start 0, nofun⟩

theorem Below.grows {h h' larger : Heap} (below : h.Below h') (grows : h'.Grows larger) :
    h.Below larger :=
  ⟨below.nodup, fun _ inside => grows.texts_subset (below.subset inside), below.interned⟩

/-- A text that is interned on both heaps is on the second, whether it was added or not. -/
theorem Below.intern {h h' : Heap} (below : h.Below h') {object : StringObject}
    (hashed : object.hash = textHash object.text)
    (room : (h'.intern object).2.size ≤ UInt32.size) :
    (h.intern object).2.Below (h'.intern object).2 := by
  have there : object.text ∈ (h'.intern object).2.texts := mem_texts (h'.text?_intern object room)
  have larger := below.grows (h'.grows_intern object)
  cases found : h.findInterned object.text with
  | some r =>
    rw [intern_of_find found]
    exact larger
  | none =>
    obtain ⟨past, rfl, inv, all⟩ := below.interned
    have absent : past.interned.lookup object.text = none := by
      rw [Option.eq_none_iff_forall_ne_some]
      intro r first
      rw [inv.findInterned.2 first] at found
      cases found
    have texts : (past.heap.intern object).2.texts = past.heap.texts ++ [object.text] := by
      rw [intern_of_find_none found]
      simp [Heap.texts, push]
    have nodup : (past.heap.texts ++ [object.text]).Nodup := by
      refine List.nodup_append.2 ⟨below.nodup, by simp, fun t old u new same => ?_⟩
      rw [same, List.mem_singleton.1 new] at old
      exact all _ old absent
    have subset : past.heap.texts ++ [object.text] ⊆ (h'.intern object).2.texts :=
      List.append_subset.2 ⟨larger.subset, by simpa using there⟩
    have small : (past.heap.intern object).2.size ≤ UInt32.size := by
      refine Nat.le_trans ?_ room
      rw [← length_texts, ← length_texts, texts]
      exact (nodup.subperm subset).length_le
    refine ⟨texts ▸ nodup, texts ▸ subset, _, rfl, inv.intern hashed small, fun t inside => ?_⟩
    show (past.interned ++ [(object.text, _)]).lookup t ≠ none
    rw [History.lookup_append_single]
    rw [texts, List.mem_append] at inside
    rcases inside with old | new
    · simp [all t old]
    · simp [List.mem_singleton.1 new]

end Heap

/-! ## Chunks -/

namespace Chunk
variable {heap heap' : Heap} {c c' : Chunk}

theorem alike_empty (heap heap' : Heap) : empty.Alike heap heap' empty := ⟨rfl, rfl, .nil⟩

theorem Alike.write (alike : c.Alike heap heap' c') (b : UInt8) (line : UInt32) :
    (c.write b line).Alike heap heap' (c'.write b line) :=
  ⟨congrArg (·.push b) alike.code, congrArg (LineRun.write · line) alike.lines, alike.constants⟩

theorem Alike.writeAll (alike : c.Alike heap heap' c') (bs : List UInt8) (line : UInt32) :
    (c.writeAll bs line).Alike heap heap' (c'.writeAll bs line) := by
  induction bs generalizing c c' with
  | nil => exact alike
  | cons b bs ih => exact ih (alike.write b line)

theorem Alike.withConstant (alike : c.Alike heap heap' c') {v v' : Value}
    (value : Value.Alike heap heap' v v') :
    (c.withConstant v).Alike heap heap' (c'.withConstant v') := by
  refine ⟨alike.code, alike.lines, ?_⟩
  simp only [Chunk.withConstant, Array.toList_push]
  exact List.rel_append alike.constants (.cons value .nil)

end Chunk

/-! ## Compiling -/

/-- The same error or alike chunks, and heaps one of which is below the other. -/
structure Compiled.Alike (x x' : Compiled) : Prop where
  result : SameResult (Chunk.Alike x.2 x'.2) x.1 x'.1
  below : x.2.Below x'.2

/-- What relates the heaps around what follows relates them if nothing follows. -/
theorem Compiled.rel_andThen {R : Heap → Heap → Prop} (refl : ∀ heap, R heap heap)
    {done : Compiled} {next : Heap → Chunk → Compiled}
    (related : ∀ heap c, R heap (next heap c).2) : R done.2 (done.andThen next).2 := by
  obtain ⟨result, heap⟩ := done
  cases result with
  | ok c => exact related heap c
  | error e => exact refl heap

theorem Compiled.grows_andThen {done : Compiled} {next : Heap → Chunk → Compiled}
    (grows : ∀ (heap : Heap) c, heap.Grows (next heap c).2) :
    done.2.Grows (done.andThen next).2 :=
  rel_andThen .refl grows

/-- What follows alike chunks on heaps with room for all that is added. -/
theorem Compiled.alike_andThen {done done' : Compiled} {next next' : Heap → Chunk → Compiled}
    (grows : ∀ (heap : Heap) c, heap.Grows (next' heap c).2)
    (room : (done'.andThen next').2.size ≤ UInt32.size)
    (alike : done'.2.size ≤ UInt32.size → done.Alike done')
    (after : ∀ {heap heap' c c'}, heap.Below heap' → c.Alike heap heap' c' →
      (next' heap' c').2.size ≤ UInt32.size → Compiled.Alike (next heap c) (next' heap' c')) :
    Compiled.Alike (done.andThen next) (done'.andThen next') := by
  have first := alike (Nat.le_trans (grows_andThen grows).size_le room)
  obtain ⟨x, heap⟩ := done
  obtain ⟨x', heap'⟩ := done'
  obtain ⟨result, below⟩ := first
  cases result with
  | ok chunk => exact after below chunk room
  | error e => exact ⟨.error e, below⟩

section
variable {source : String} {heap heap' : Heap} {c c' : Chunk}

theorem Chunk.heap_load (c : Chunk) (heap : Heap) (v : Value) (line : UInt32) :
    (c.load heap v line).2 = heap := by
  unfold load
  split <;> rfl

theorem Chunk.Alike.load (alike : c.Alike heap heap' c') (below : heap.Below heap') {v v' : Value}
    (value : Value.Alike heap heap' v v') (line : UInt32) :
    Compiled.Alike (c.load heap v line) (c'.load heap' v' line) := by
  have size : c.constants.size = c'.constants.size := by simpa using alike.constants.length_eq
  rw [Chunk.load, Chunk.load, writeConstant, writeConstant, addConstant, addConstant, size]
  by_cases full : maxConstants ≤ c'.constants.size
  · rw [if_pos full, if_pos full]
    exact ⟨.error _, below⟩
  · rw [if_neg full, if_neg full]
    exact ⟨.ok ((alike.withConstant value).writeAll _ line), below⟩

/-- A literal's text is interned, if there is one. -/
theorem Heap.literal?_eq (heap : Heap) (start length : Nat) :
    heap.literal? source start length =
      (if length < 2 then none else Text.slice? source (start + 1) (length - 2)).map
        fun text => heap.intern (.ofText text false) := by
  unfold literal? refString?
  split <;> rfl

theorem Heap.Below.alike_intern (below : heap.Below heap') (text : String) (owned : Bool)
    (room : (heap'.intern (.ofText text owned)).2.size ≤ UInt32.size) :
    Value.Alike (heap.intern (.ofText text owned)).2 (heap'.intern (.ofText text owned)).2
      (.string (heap.intern (.ofText text owned)).1)
      (.string (heap'.intern (.ofText text owned)).1) :=
  have small := Nat.le_trans (below.intern rfl room).size_le room
  ⟨.text text, .text (heap.text?_intern _ small), .text (heap'.text?_intern _ room)⟩

/-- Compiling does with the heap what some calls would do, also where it fails. -/
theorem Literal.follows_compile (source : String) (line : UInt32) (heap : Heap) (c : Chunk)
    (value : Literal) : heap.Follows (value.compile source line heap c).2 := by
  cases value with
  | boolean b => cases b <;> exact .refl _
  | character | real | integer =>
    rw [compile, c.heap_load]
    exact .refl _
  | string start length =>
    rw [compile, heap.literal?_eq]
    by_cases short : length < 2
    · rw [if_pos short]
      exact .refl _
    rw [if_neg short]
    cases cut : Text.slice? source (start + 1) (length - 2) with
    | none => exact .refl _
    | some text =>
      simp only [Option.map_some, c.heap_load]
      exact Heap.after_refString cut ▸ heap.follows_after nofun

theorem Literal.alike_compile {value : Literal} {line : UInt32} (below : heap.Below heap')
    (chunk : c.Alike heap heap' c')
    (room : (value.compile source line heap' c').2.size ≤ UInt32.size) :
    Compiled.Alike (value.compile source line heap c) (value.compile source line heap' c') := by
  cases value with
  | boolean b => cases b <;> exact ⟨.ok (chunk.write _ line), below⟩
  | character x => exact chunk.load below ⟨_, .character x, .character x⟩ line
  | real x => exact chunk.load below ⟨_, .real x, .real x⟩ line
  | integer n => exact chunk.load below ⟨_, .integer n, .integer n⟩ line
  | string start length =>
    rw [compile, heap'.literal?_eq] at room
    rw [compile, compile, heap.literal?_eq, heap'.literal?_eq]
    generalize (if length < 2 then none else
      Text.slice? source (start + 1) (length - 2)) = found at room ⊢
    cases found with
    | none => exact ⟨.error _, below⟩
    | some text =>
      simp only [Option.map_some, c'.heap_load] at room ⊢
      have grown := chunk.grows (heap.grows_intern (.ofText text false))
        (heap'.grows_intern (.ofText text false))
      exact grown.load (below.intern rfl room) (below.alike_intern text false room) line

theorem Expr.follows_compile (source : String) (e : Expr) :
    ∀ (heap : Heap) c, heap.Follows (e.compile source heap c).2 := by
  induction e with
  | literal line value => exact fun heap c => value.follows_compile source line heap c
  | group line x ih => exact ih
  | unary line op x ih =>
    exact fun heap c => (ih heap c).trans (Compiled.rel_andThen .refl fun _ _ => .refl _)
  | binary line op l r ihl ihr =>
    exact fun heap c => (ihl heap c).trans (Compiled.rel_andThen .refl fun heap c =>
      (ihr heap c).trans (Compiled.rel_andThen .refl fun _ _ => .refl _))

theorem Expr.grows_heap (source : String) (e : Expr) (heap : Heap) (c : Chunk) :
    heap.Grows (e.compile source heap c).2 :=
  (e.follows_compile source heap c).grows

/-- Compiling a source does with the heap what some calls would do. -/
theorem follows_compileSource (source : String) (heap : Heap) :
    heap.Follows (compileSource source heap).2 := by
  unfold compileSource
  split
  · exact .refl heap
  · rename_i ast _
    exact (ast.expr.follows_compile ast.source heap .empty).trans
      (Compiled.rel_andThen .refl fun _ _ => .refl _)

/-- The code of an expression, by induction on the expression. -/
theorem Expr.alike_compile {e : Expr} : ∀ {heap heap' : Heap} {c c' : Chunk},
    heap.Below heap' → c.Alike heap heap' c' →
    (e.compile source heap' c').2.size ≤ UInt32.size →
    Compiled.Alike (e.compile source heap c) (e.compile source heap' c') := by
  induction e with
  | literal line value => exact fun below chunk room => Literal.alike_compile below chunk room
  | group line x ih => exact ih
  | unary line op x ih =>
    intro heap heap' c c' below chunk room
    exact Compiled.alike_andThen (fun _ _ => .refl _) room (ih below chunk)
      fun below chunk _ => ⟨.ok (chunk.write _ line), below⟩
  | binary line op l r ihl ihr =>
    intro heap heap' c c' below chunk room
    refine Compiled.alike_andThen (fun heap c => ?_) room (ihl below chunk)
      fun below chunk room => Compiled.alike_andThen (fun _ _ => .refl _) room (ihr below chunk)
        fun below chunk _ => ⟨.ok (chunk.write _ line), below⟩
    exact (r.grows_heap source heap c).trans (Compiled.grows_andThen fun _ _ => .refl _)

/-- A source compiled on an empty heap and on any other that has room for its strings. -/
theorem alike_compileSource (source : String) (heap : Heap)
    (room : (compileSource source heap).2.size ≤ UInt32.size) :
    Compiled.Alike (compileSource source .new) (compileSource source heap) := by
  unfold compileSource at room ⊢
  generalize parse .standard .standard source = parsed at room ⊢
  cases parsed with
  | error e => exact ⟨.error _, heap.below_new⟩
  | ok ast =>
    exact Compiled.alike_andThen (fun _ _ => .refl _) room
      (Expr.alike_compile heap.below_new (Chunk.alike_empty _ _))
      fun below chunk _ => ⟨.ok (chunk.write _ _), below⟩

end

end Pseudocode
