import Pseudocode.Proofs.Heap.Growth
import Pseudocode.Proofs.Heap.TableInvariant
/-!
# Interning

A heap is kept together with its history since it was last cleared: the texts that were interned
with the handles given for them, in order, and the handles given for joined strings. Whatever calls
were made, the table holds the first handle given for every text, under the hash of the text, and
nothing else (`History.Inv`).

* `History.Inv.findInterned`: a text is found just if it was interned, and under its first handle;
* `History.Inv.intern`, `History.Inv.after`: every call keeps the invariant;
* `Reachable.strings_interned`: what holds after any number of calls, and what the next one does.
-/
namespace Pseudocode

inductive HeapCall where
  | copyString (text : String)
  | refString (source : String) (start length : Nat)
  | concat (a b : Handle)
  | clear
  deriving DecidableEq, Repr

/-- A heap with what was done since it was last cleared. -/
structure History where
  heap : Heap
  /-- The texts that were interned, each time with the handle given. -/
  interned : List (String × Handle)
  /-- The handles given for joined strings. -/
  joined : List Handle
  deriving DecidableEq, Repr

namespace History

def start (capacity : Nat) : History := ⟨.ofTableCapacity capacity, [], []⟩

/-- A handle was given for a text. -/
def given (past : History) (text : String) (answer : Handle × Heap) : History :=
  ⟨answer.2, past.interned ++ [(text, answer.1)], past.joined⟩

/-- The history with one more call. A range that is none, or a handle without a string, changes
nothing. -/
def after (past : History) : HeapCall → History
  | .copyString text => past.given text (past.heap.copyString text)
  | .refString source start length =>
    match Text.slice? source start length, past.heap.refString? source start length with
    | some text, some answer => past.given text answer
    | _, _ => past
  | .concat a b =>
    match past.heap.concat? a b with
    | some (r, heap) => ⟨heap, past.interned, past.joined ++ [r]⟩
    | none => past
  | .clear => ⟨past.heap.clear, [], []⟩

/-- What holds of a heap and its history. -/
structure Interning (past : History) : Prop where
  /-- Every key of the table is the handle of a string, under the hash of the text. -/
  live : ∀ k hash, (k, hash) ∈ past.heap.interned.entries →
    ∃ s, past.heap.get? k = some s ∧ s.hash = textHash s.text ∧ hash = s.hash
  /-- No two keys have the same text. -/
  distinct : ∀ k hash k' hash', (k, hash) ∈ past.heap.interned.entries →
    (k', hash') ∈ past.heap.interned.entries → past.heap.text? k = past.heap.text? k' → k = k'
  /-- A text is found just if it was interned, under the handle given the first time. -/
  found : ∀ text r, past.heap.findInterned text = some r ↔ past.interned.lookup text = some r
  /-- Handles given for texts are equal just if the texts are. -/
  equal : ∀ text r text' r', (text, r) ∈ past.interned → (text', r') ∈ past.interned →
    (r = r' ↔ text = text')
  /-- No handle given for a joined string is in the table, or is given for a text. -/
  apart : ∀ r ∈ past.joined, (∀ hash, (r, hash) ∉ past.heap.interned.entries) ∧
    ∀ text, (text, r) ∉ past.interned

end History

/-- The heap after a call, whose answer is not looked at. -/
def Heap.after (h : Heap) (call : HeapCall) : Heap := (History.after ⟨h, [], []⟩ call).heap

/-- The histories of a heap that never has more than 2^32 strings. -/
inductive Reachable (capacity : Nat) : History → Prop where
  | start : Reachable capacity (.start capacity)
  | after {past : History} (call : HeapCall) (before : Reachable capacity past)
    (room : (past.after call).heap.size ≤ UInt32.size) : Reachable capacity (past.after call)

namespace Heap

/-- A string was added, under a new handle. -/
structure Adds (h : Heap) (object : StringObject) (r : Handle) (h' : Heap) : Prop where
  fresh : h.get? r = none
  stored : h'.get? r = some object
  objects : h'.objects = h.objects.push object

/-- The handle is that of a string with the text of `object`, which was added only if the text was
not interned. -/
structure Interns (h : Heap) (object : StringObject) (r : Handle) (h' : Heap) : Prop where
  text : h'.text? r = some object.text
  known : ∀ k, h.findInterned object.text = some k → r = k ∧ h' = h
  new : h.findInterned object.text = none → h.Adds object r h'

/-! ## New strings -/

theorem get?_eq_none_iff {h : Heap} {r : Handle} : h.get? r = none ↔ h.size ≤ r.index.toNat := by
  rw [get?, Array.getElem?_eq_none_iff, size]

theorem get?_ofNat_size {h : Heap} (room : h.size < UInt32.size) :
    h.get? (.ofNat h.objects.size) = none := by
  have index : (Handle.ofNat h.objects.size).index.toNat = h.size := UInt32.toNat_ofNat_of_lt room
  rw [get?_eq_none_iff]
  exact Nat.le_of_eq index.symm

/-- After a push a handle has its string as before, or it is the new one. -/
theorem get?_of_push {h : Heap} {object s : StringObject} {r : Handle}
    (found : (h.push object).2.get? r = some s) :
    h.get? r = some s ∨ (r = .ofNat h.objects.size ∧ s = object) := by
  simp only [push, get?, Array.getElem?_push] at found
  split at found
  · rename_i last
    refine .inr ⟨?_, (Option.some.inj found).symm⟩
    rw [Handle.ofNat, ← last, UInt32.ofNat_toNat]
  · exact .inl found

theorem adds_push {h : Heap} (object : StringObject) (room : h.size < UInt32.size)
    (table : InternTable) :
    h.Adds object (h.push object).1 { (h.push object).2 with interned := table } where
  fresh := get?_ofNat_size room
  stored := h.get?_push object room
  objects := rfl

end Heap

namespace History

/-! ## The invariant -/

/-- The table holds the first handle given for every text, under the hash of the text, and nothing
else. -/
structure Inv (past : History) : Prop where
  room : past.heap.size ≤ UInt32.size
  table : past.heap.interned.Valid
  hashed : ∀ r s, past.heap.get? r = some s → s.hash = textHash s.text
  keys : ∀ k hash, InternTable.Holds past.heap.interned.slots k hash ↔
    ∃ text, past.interned.lookup text = some k ∧ hash = textHash text
  texts : ∀ text r, (text, r) ∈ past.interned → past.heap.text? r = some text
  first : ∀ text r, (text, r) ∈ past.interned → past.interned.lookup text = some r
  joined : ∀ r ∈ past.joined, past.heap.get? r ≠ none ∧ ∀ text, (text, r) ∉ past.interned

theorem inv_start (capacity : Nat) : (start capacity).Inv := by
  obtain ⟨valid, none⟩ := InternTable.valid_ofCapacity capacity
  refine ⟨Nat.zero_le _, valid, ?_, fun k hash => ⟨fun held => absurd held (none k hash), ?_⟩, ?_, ?_,
    ?_⟩
  · intro r s found
    simp [start, Heap.ofTableCapacity, Heap.get?] at found
  · rintro ⟨text, found, -⟩
    cases found
  · intro text r given
    cases given
  · intro text r given
    cases given
  · intro r given
    cases given

theorem mem_of_lookup {log : List (String × Handle)} {text : String} {r : Handle}
    (found : log.lookup text = some r) : (text, r) ∈ log := by
  obtain ⟨_, _, rfl, -⟩ := List.lookup_eq_some_iff.1 found
  simp

theorem lookup_append_single (log : List (String × Handle)) (text t : String) (r : Handle) :
    (log ++ [(text, r)]).lookup t = (log.lookup t).or (if t = text then some r else none) := by
  rw [List.lookup_append, List.lookup_cons, List.lookup_nil]
  by_cases same : t = text
  · simp [same]
  · rw [beq_false_of_ne same, if_neg same]

section
variable {past : History}

/-- A text is found just if it was interned, and under its first handle. -/
theorem Inv.findInterned (inv : past.Inv) {text : String} {r : Handle} :
    past.heap.findInterned text = some r ↔ past.interned.lookup text = some r := by
  have sound {k : Handle} (found : past.heap.findInterned text = some k) :
      past.interned.lookup text = some k := by
    obtain ⟨held, read⟩ := InternTable.find?_eq_some found
    obtain ⟨text', first, -⟩ := (inv.keys _ _).1 held
    have read' := inv.texts _ _ (mem_of_lookup first)
    obtain rfl : text' = text := Option.some.inj (read'.symm.trans read)
    exact first
  refine ⟨sound, fun first => ?_⟩
  have held := (inv.keys r (textHash text)).2 ⟨text, first, rfl⟩
  cases found : past.heap.findInterned text with
  | some k =>
    have first' := sound found
    rw [first] at first'
    rw [Option.some.inj first']
  | none =>
    have read := inv.texts _ _ (mem_of_lookup first)
    exact absurd read (inv.table.find?_eq_none found held)

theorem Inv.given_known (inv : past.Inv) {text : String} {r : Handle}
    (first : past.interned.lookup text = some r) : (past.given text (r, past.heap)).Inv := by
  have same (t : String) :
      (past.interned ++ [(text, r)]).lookup t = past.interned.lookup t := by
    rw [lookup_append_single]
    by_cases same : t = text
    · rw [same, first]
      rfl
    · simp [same]
  have member {t : String} {k : Handle} (inside : (t, k) ∈ past.interned ++ [(text, r)]) :
      (t, k) ∈ past.interned := by
    rcases List.mem_append.1 inside with old | new
    · exact old
    · cases List.mem_singleton.1 new
      exact mem_of_lookup first
  refine ⟨inv.room, inv.table, inv.hashed, fun k hash => ?_, fun t k inside => ?_,
    fun t k inside => ?_, fun k inside => ?_⟩
  · simp only [given, same]
    exact inv.keys k hash
  · exact inv.texts t k (member inside)
  · exact (same t).trans (inv.first t k (member inside))
  · exact ⟨(inv.joined k inside).1, fun t given => (inv.joined k inside).2 t (member given)⟩

theorem Inv.live (inv : past.Inv) {k : Handle} {hash : UInt32}
    (held : InternTable.Holds past.heap.interned.slots k hash) :
    ∃ s, past.heap.get? k = some s ∧ s.hash = textHash s.text ∧ hash = s.hash := by
  obtain ⟨text, first, rfl⟩ := (inv.keys k hash).1 held
  have read := inv.texts _ _ (mem_of_lookup first)
  obtain ⟨s, found, rfl⟩ := Option.map_eq_some_iff.1 read
  exact ⟨s, found, inv.hashed k s found, (inv.hashed k s found).symm⟩

theorem Inv.not_given (inv : past.Inv) {r : Handle} (fresh : past.heap.get? r = none)
    (text : String) : (text, r) ∉ past.interned := by
  intro inside
  have read := inv.texts text r inside
  rw [Heap.text?, fresh] at read
  cases read

theorem Inv.hashed_push (inv : past.Inv) {object : StringObject}
    (hashed : object.hash = textHash object.text) {r : Handle} {s : StringObject}
    (found : (past.heap.push object).2.get? r = some s) : s.hash = textHash s.text := by
  rcases Heap.get?_of_push found with old | ⟨-, rfl⟩
  · exact inv.hashed r s old
  · exact hashed

/-- The handles first given for the texts, with one text more. -/
theorem Inv.keys_append (inv : past.Inv) {text : String}
    (absent : past.interned.lookup text = none) (r k : Handle) (hash : UInt32) :
    (∃ t, (past.interned ++ [(text, r)]).lookup t = some k ∧ hash = textHash t) ↔
      InternTable.Holds past.heap.interned.slots k hash ∨ (k = r ∧ hash = textHash text) := by
  rw [inv.keys]
  simp only [lookup_append_single]
  constructor
  · intro given
    obtain ⟨t, first, rfl⟩ := given
    by_cases same : t = text
    · subst same
      rw [absent, if_pos rfl] at first
      exact .inr ⟨(Option.some.inj first).symm, rfl⟩
    · rw [if_neg same, Option.or_none] at first
      exact .inl ⟨t, first, rfl⟩
  · intro either
    rcases either with ⟨t, first, rfl⟩ | ⟨rfl, rfl⟩
    · exact ⟨t, by simp [first], rfl⟩
    · exact ⟨text, by simp [absent], rfl⟩

theorem Inv.given_new (inv : past.Inv) {object : StringObject}
    (hashed : object.hash = textHash object.text)
    (absent : past.interned.lookup object.text = none) (room : past.heap.size < UInt32.size) :
    (past.given object.text ((past.heap.push object).1, { (past.heap.push object).2 with
      interned := (past.heap.interned.insert (past.heap.push object).1 object.hash).2 })).Inv := by
  generalize made : (past.heap.push object).1 = r
  have fresh : past.heap.get? r = none := made ▸ Heap.get?_ofNat_size room
  -- the new handle was not in the table, so it is not there under another hash
  have unheld (h : UInt32) : ¬ InternTable.Holds past.heap.interned.slots r h := by
    intro held
    obtain ⟨s, found, -⟩ := inv.live held
    rw [fresh] at found
    cases found
  obtain ⟨table, -, holds⟩ := inv.table.insert fun h held => (unheld h held).elim
  have grows := past.heap.grows_push object
  refine ⟨?_, table, fun k s => inv.hashed_push hashed, fun k hash => ?_, fun t k inside => ?_,
    fun t k inside => ?_, fun k inside => ?_⟩
  · show (past.heap.push object).2.size ≤ UInt32.size
    rw [Heap.size_push]
    exact room
  · refine (holds k hash).trans ?_
    rw [hashed]
    exact (inv.keys_append absent r k hash).symm
  · rcases List.mem_append.1 inside with old | new
    · exact grows.text? (inv.texts t k old)
    · cases List.mem_singleton.1 new
      exact made ▸ past.heap.text?_push object _ room
  · show (past.interned ++ [(object.text, r)]).lookup t = some k
    rw [lookup_append_single]
    rcases List.mem_append.1 inside with old | new
    · simp [inv.first t k old]
    · cases List.mem_singleton.1 new
      simp [absent]
  · obtain ⟨live, apart⟩ := inv.joined k inside
    refine ⟨grows.live live, fun t given => ?_⟩
    rcases List.mem_append.1 given with old | new
    · exact apart t old
    · cases List.mem_singleton.1 new
      exact live fresh

theorem Inv.intern (inv : past.Inv) {object : StringObject}
    (hashed : object.hash = textHash object.text)
    (room : (past.heap.intern object).2.size ≤ UInt32.size) :
    (past.given object.text (past.heap.intern object)).Inv := by
  cases found : past.heap.findInterned object.text with
  | some r =>
    rw [Heap.intern_of_find found]
    exact inv.given_known (inv.findInterned.1 found)
  | none =>
    rw [Heap.intern_of_find_none found] at room ⊢
    have absent : past.interned.lookup object.text = none := by
      rw [Option.eq_none_iff_forall_ne_some]
      intro r first
      rw [inv.findInterned.2 first] at found
      cases found
    exact inv.given_new hashed absent (Heap.size_lt_of_push room)

theorem Inv.push (inv : past.Inv) {object : StringObject}
    (hashed : object.hash = textHash object.text) (room : past.heap.size < UInt32.size) :
    History.Inv ⟨(past.heap.push object).2, past.interned,
      past.joined ++ [(past.heap.push object).1]⟩ := by
  have grows := past.heap.grows_push object
  refine ⟨?_, inv.table, fun k s => inv.hashed_push hashed, inv.keys, fun t k inside => ?_,
    inv.first, fun k inside => ?_⟩
  · rw [Heap.size_push]
    exact room
  · exact grows.text? (inv.texts t k inside)
  · rcases List.mem_append.1 inside with old | new
    · obtain ⟨live, apart⟩ := inv.joined k old
      exact ⟨grows.live live, apart⟩
    · obtain rfl := List.mem_singleton.1 new
      refine ⟨?_, inv.not_given (Heap.get?_ofNat_size room)⟩
      rw [past.heap.get?_push object room]
      exact Option.some_ne_none object

/-- A call clears the heap, interns a text, adds a joined string or changes nothing. -/
theorem after_cases (past : History) (call : HeapCall) :
    (call = .clear ∧ past.after call = ⟨past.heap.clear, [], []⟩) ∨
      (∃ text owned, past.after call =
        past.given text (past.heap.intern (.ofText text owned))) ∨
      (∃ text, past.after call = ⟨(past.heap.push (.ofText text true)).2, past.interned,
        past.joined ++ [(past.heap.push (.ofText text true)).1]⟩) ∨
      past.after call = past := by
  cases call with
  | copyString text => exact .inr (.inl ⟨text, true, rfl⟩)
  | refString source start length =>
    rw [History.after]
    split
    · rename_i text answer cut referred
      obtain ⟨text', cut', interned⟩ := Heap.refString?_eq_some_iff.1 referred
      obtain rfl : text = text' := Option.some.inj (cut.symm.trans cut')
      exact .inr (.inl ⟨text, false, by rw [interned]⟩)
    · exact .inr (.inr (.inr rfl))
  | concat a b =>
    rw [History.after]
    split
    · rename_i r heap joined
      obtain ⟨x, y, -, -, pushed⟩ := Heap.concat?_eq_some_iff.1 joined
      exact .inr (.inr (.inl ⟨x ++ y, by rw [pushed]⟩))
    · exact .inr (.inr (.inr rfl))
  | clear => exact .inl ⟨rfl, rfl⟩

theorem Inv.after (inv : past.Inv) (call : HeapCall)
    (room : (past.after call).heap.size ≤ UInt32.size) : (past.after call).Inv := by
  rcases past.after_cases call with ⟨-, made⟩ | ⟨text, owned, made⟩ | ⟨text, made⟩ | made <;>
    rw [made] at room ⊢
  · exact inv_start past.heap.tableCapacity
  · exact @Inv.intern past inv (.ofText text owned) rfl room
  · exact @Inv.push past inv (.ofText text true) rfl (Heap.size_lt_of_push room)
  · exact inv

end

end History

/-- The invariant holds after any number of calls, by induction on them. -/
theorem Reachable.inv {capacity : Nat} {past : History} (reachable : Reachable capacity past) :
    past.Inv := by
  induction reachable with
  | start => exact History.inv_start capacity
  | after call _ room ih => exact ih.after call room

/-! ## What the calls do -/

theorem Heap.interns_intern {h : Heap} (object : StringObject)
    (room : (h.intern object).2.size ≤ UInt32.size) :
    h.Interns object (h.intern object).1 (h.intern object).2 := by
  refine ⟨h.text?_intern object room, fun k found => ?_, fun absent => ?_⟩
  · rw [intern_of_find found]
    exact ⟨rfl, rfl⟩
  · rw [intern_of_find_none absent] at room ⊢
    exact adds_push object (size_lt_of_push room) _

theorem History.grows_after (past : History) {call : HeapCall} (keeps : call ≠ .clear) :
    past.heap.Grows (past.after call).heap := by
  rcases past.after_cases call with ⟨cleared, -⟩ | ⟨text, owned, made⟩ | ⟨text, made⟩ | made
  · exact (keeps cleared).elim
  · rw [made]
    exact past.heap.grows_intern _
  · rw [made]
    exact past.heap.grows_push _
  · rw [made]
    exact .refl _

/-- The invariant is what holds of a heap and its history. -/
theorem History.Inv.interning {past : History} (inv : past.Inv) : past.Interning where
  live k hash inside := inv.live (InternTable.mem_entries.1 inside)
  distinct k hash k' hash' inside inside' same := by
    obtain ⟨t, first, -⟩ := (inv.keys k hash).1 (InternTable.mem_entries.1 inside)
    obtain ⟨t', first', -⟩ := (inv.keys k' hash').1 (InternTable.mem_entries.1 inside')
    rw [inv.texts t k (mem_of_lookup first), inv.texts t' k' (mem_of_lookup first')] at same
    rw [Option.some.inj same] at first
    exact Option.some.inj (first.symm.trans first')
  found text r := inv.findInterned
  equal t r t' r' inside inside' := by
    constructor
    · intro same
      subst same
      exact Option.some.inj ((inv.texts t r inside).symm.trans (inv.texts t' r inside'))
    · intro same
      subst same
      exact Option.some.inj ((inv.first t r inside).symm.trans (inv.first t r' inside'))
  apart r inside := by
    obtain ⟨-, apart⟩ := inv.joined r inside
    refine ⟨fun hash key => ?_, apart⟩
    obtain ⟨t, first, -⟩ := (inv.keys r hash).1 (InternTable.mem_entries.1 key)
    exact apart t (mem_of_lookup first)

/-- **Interning.** After any calls the table holds the handles of distinct texts under the hashes of
these, and finds the handle that was given first for a text. The next call gives the handle of a
string with the text it was asked for; it adds a string if the text was not interned, or if it joins
two strings, and it leaves the strings before alone unless it is `clear`. -/
theorem Reachable.strings_interned {capacity : Nat} {past : History}
    (reachable : Reachable capacity past) :
    past.Interning ∧
      (∀ text r h, past.heap.copyString text = (r, h) → h.size ≤ UInt32.size →
        past.heap.Interns (.ofText text true) r h) ∧
      (∀ source start length text, Text.slice? source start length = some text →
        ∃ r h, past.heap.refString? source start length = some (r, h) ∧
          (h.size ≤ UInt32.size → past.heap.Interns (.ofText text false) r h)) ∧
      (∀ a b r h, past.heap.concat? a b = some (r, h) → h.size ≤ UInt32.size →
        ∃ x y, past.heap.text? a = some x ∧ past.heap.text? b = some y ∧
          past.heap.Adds (.ofText (x ++ y) true) r h ∧
          past.after (.concat a b) = ⟨h, past.interned, past.joined ++ [r]⟩ ∧
          h.interned = past.heap.interned) ∧
      (∀ a b, past.heap.concat? a b = none →
        (past.heap.text? a = none ∨ past.heap.text? b = none) ∧ past.after (.concat a b) = past) ∧
      ∀ call ≠ .clear, ∀ r s, past.heap.get? r = some s →
        (past.after call).heap.get? r = some s := by
  refine ⟨reachable.inv.interning, ?_, ?_, ?_, ?_, ?_⟩
  · intro text r h copied room
    have interns := @Heap.interns_intern past.heap (.ofText text true)
    rw [Heap.copyString] at copied
    rw [copied] at interns
    exact interns room
  · intro source start length text cut
    have interns := @Heap.interns_intern past.heap (.ofText text false)
    exact ⟨_, _, Heap.refString?_eq_some_iff.2 ⟨text, cut, rfl⟩, interns⟩
  · intro a b r h joined room
    have made : past.after (.concat a b) = ⟨h, past.interned, past.joined ++ [r]⟩ := by
      rw [History.after, joined]
    obtain ⟨x, y, left, right, pushed⟩ := Heap.concat?_eq_some_iff.1 joined
    obtain ⟨rfl, rfl⟩ := Prod.mk.inj pushed
    have before : past.heap.size < UInt32.size := Heap.size_lt_of_push room
    exact ⟨x, y, left, right, Heap.adds_push _ before past.heap.interned, made, rfl⟩
  · intro a b refused
    refine ⟨?_, by rw [History.after, refused]⟩
    cases left : past.heap.text? a with
    | none => exact .inl rfl
    | some x =>
      cases right : past.heap.text? b with
      | none => exact .inr rfl
      | some y => simp [Heap.concat?, left, right] at refused
  · intro call keeps r s found
    exact (past.grows_after keeps).get? found

/-- A joined string with the text of one that is interned later. -/
theorem Reachable.strings_interned_joined :
    let past := (((History.start 0).after (.copyString "a")).after (.concat ⟨0⟩ ⟨0⟩)).after
      (.copyString "aa")
    Reachable 0 past ∧ past.interned = [("a", ⟨0⟩), ("aa", ⟨2⟩)] ∧ past.joined = [⟨1⟩] ∧
      past.Interning := by
  intro past
  have reachable : Reachable 0 past :=
    .after _ (.after _ (.after _ .start (by decide)) (by decide)) (by decide)
  exact ⟨reachable, by decide, by decide, reachable.strings_interned.1⟩

end Pseudocode
