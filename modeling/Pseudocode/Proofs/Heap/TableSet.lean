import Mathlib.Data.Finset.Dedup
import Mathlib.Data.Finset.Card
import Mathlib.Logic.Function.Basic
import Pseudocode.Proofs.Heap.TableInvariant
/-!
# Tables as sets

Some tables are used together, and every handle always with the same hash. Then each of them stands
for a set of handles (`StandsFor`), whatever the order of the calls: the answers are those of the
sets, and the entries are the members.

* `StandsFor.insert`, `StandsFor.delete`, `StandsFor.contains`, `StandsFor.addAll`: one call;
* `searchesEnd_of_empty`: a search in slots one of which is empty comes to an end;
* `answers_of_sets`: any number of calls.
-/
namespace Pseudocode.InternTable

/-! ## The set of a table -/

/-- The table holds the members of the set under their hashes. -/
structure StandsFor (hashOf : Handle → UInt32) (t : InternTable) (s : Finset Handle) : Prop where
  valid : t.Valid
  holds : ∀ k h, Holds t.slots k h ↔ k ∈ s ∧ h = hashOf k

section
variable {hashOf : Handle → UInt32} {t source : InternTable} {s s' : Finset Handle}

theorem standsFor_ofCapacity (hashOf : Handle → UInt32) (least : Nat) :
    StandsFor hashOf (ofCapacity least) ∅ := by
  obtain ⟨valid, none⟩ := valid_ofCapacity least
  refine ⟨valid, fun k h => ?_⟩
  simp [none]

theorem StandsFor.fixed (stands : StandsFor hashOf t s) (key : Handle) (h : UInt32)
    (held : Holds t.slots key h) : h = hashOf key := ((stands.holds key h).1 held).2

theorem StandsFor.holds_iff (stands : StandsFor hashOf t s) (key : Handle) :
    Holds t.slots key (hashOf key) ↔ key ∈ s := by
  rw [stands.holds]
  simp

theorem StandsFor.contains (stands : StandsFor hashOf t s) (key : Handle) :
    t.contains key (hashOf key) = decide (key ∈ s) := by
  rw [Bool.eq_iff_iff, decide_eq_true_iff, stands.valid.contains (stands.fixed key),
    stands.holds_iff]

theorem StandsFor.insert (stands : StandsFor hashOf t s) (key : Handle) :
    (t.insert key (hashOf key)).1 = decide (key ∉ s) ∧
      StandsFor hashOf (t.insert key (hashOf key)).2 (Insert.insert key s) := by
  obtain ⟨valid, new, holds⟩ := stands.valid.insert (stands.fixed key)
  refine ⟨?_, valid, fun k h => ?_⟩
  · rw [Bool.eq_iff_iff, decide_eq_true_iff, new, stands.holds_iff]
  · rw [holds, stands.holds, Finset.mem_insert]
    constructor
    · intro either
      rcases either with ⟨inside, rfl⟩ | ⟨rfl, rfl⟩
      · exact ⟨.inr inside, rfl⟩
      · exact ⟨.inl rfl, rfl⟩
    · intro given
      rcases given with ⟨rfl | inside, rfl⟩
      · exact .inr ⟨rfl, rfl⟩
      · exact .inl ⟨inside, rfl⟩

theorem StandsFor.delete (stands : StandsFor hashOf t s) (key : Handle) :
    (t.delete key (hashOf key)).1 = decide (key ∈ s) ∧
      StandsFor hashOf (t.delete key (hashOf key)).2 (s.erase key) := by
  obtain ⟨valid, present, holds⟩ := stands.valid.delete (stands.fixed key)
  refine ⟨?_, valid, fun k h => ?_⟩
  · rw [Bool.eq_iff_iff, decide_eq_true_iff, present, stands.holds_iff]
  · rw [holds, stands.holds, Finset.mem_erase]
    tauto

theorem StandsFor.mem_entries (stands : StandsFor hashOf t s) {k : Handle} {h : UInt32} :
    (k, h) ∈ t.entries ↔ k ∈ s ∧ h = hashOf k := InternTable.mem_entries.trans (stands.holds k h)

/-- The entries are the members with their hashes, each once. -/
theorem StandsFor.entries (stands : StandsFor hashOf t s) :
    t.entries.Perm (s.toList.map fun k => (k, hashOf k)) := by
  have once := (nodup_entries stands.valid.probed).of_map
  have once' : (s.toList.map fun k => (k, hashOf k)).Nodup := by
    refine s.nodup_toList.map fun k k' same => ?_
    exact congrArg Prod.fst same
  refine (List.perm_ext_iff_of_nodup once once').2 fun ⟨k, h⟩ => ?_
  rw [stands.mem_entries, List.mem_map]
  constructor
  · intro given
    obtain ⟨inside, rfl⟩ := given
    exact ⟨k, Finset.mem_toList.2 inside, rfl⟩
  · intro given
    obtain ⟨_, inside, same⟩ := given
    cases same
    exact ⟨Finset.mem_toList.1 inside, rfl⟩

theorem StandsFor.size_eq (stands : StandsFor hashOf t s) : t.size = s.card := by
  rw [stands.valid.size, ← length_entries, stands.entries.length_eq, List.length_map,
    Finset.length_toList]

/-- Adding entries one after another, by induction on them. -/
theorem standsFor_foldl (hashOf : Handle → UInt32) : ∀ (es : List (Handle × UInt32))
    {t : InternTable} {s : Finset Handle}, (∀ e ∈ es, e.2 = hashOf e.1) → StandsFor hashOf t s →
    StandsFor hashOf (es.foldl (fun t e => (t.insert e.1 e.2).2) t)
      (s ∪ (es.map Prod.fst).toFinset)
  | [], _, _, _, stands => by simpa using stands
  | (k, h) :: es, t, s, hashed, stands => by
    obtain rfl : h = hashOf k := hashed _ (List.mem_cons_self ..)
    have added := (stands.insert k).2
    have rest := standsFor_foldl hashOf es
      (fun e inside => hashed e (List.mem_cons_of_mem _ inside)) added
    simpa [Finset.insert_union, Finset.union_insert] using rest

theorem StandsFor.addAll (stands : StandsFor hashOf t s) (stands' : StandsFor hashOf source s') :
    StandsFor hashOf (t.addAll source) (s ∪ s') := by
  have added := standsFor_foldl hashOf source.entries
    (fun e inside => (stands'.mem_entries.1 inside).2) stands
  have members : (source.entries.map Prod.fst).toFinset = s' := by
    ext k
    simp [stands'.mem_entries]
  rwa [members] at added

end

/-! ## Searches end -/

/-- A search from any home meets an empty slot within one round, so that more turns find the same.
-/
structure SearchesEnd (slots : Array Slot) : Prop where
  near : ∀ hash, ∃ d < slots.size, slots[spot slots hash d]? = some .empty
  handle : ∀ key hash extra,
    seek slots key (slots.size + extra) (home slots hash) none = slotOf slots key hash
  text : ∀ {α : Type} [DecidableEq α] (textOf : Handle → Option α) text hash extra,
    seekText slots textOf text hash (slots.size + extra) (home slots hash) =
      seekText slots textOf text hash slots.size (home slots hash)

theorem searchesEnd_of_empty {slots : Array Slot} (room : ∃ i : Nat, slots[i]? = some .empty) :
    SearchesEnd slots := by
  have ends (hash : UInt32) : EndsWithin slots hash 0 (0 + slots.size) := endsWithin_of_empty room
  refine ⟨fun hash => ?_, fun key hash extra => ?_, fun textOf text hash extra => ?_⟩
  · obtain ⟨d, -, near, found⟩ := ends hash
    exact ⟨d, by omega, found⟩
  · rw [slotOf, ← spot_zero]
    exact seek_add (ends hash)
  · rw [← spot_zero]
    exact seekText_add (ends hash)

/-! ## Calls -/

/-- A call on one of some tables, which are numbered. -/
inductive TableCall where
  | insert (table : Nat) (key : Handle)
  | delete (table : Nat) (key : Handle)
  | contains (table : Nat) (key : Handle)
  /-- Adds what the second table holds to the first. -/
  | addAll (table source : Nat)
  /-- Makes the first table a copy of the second. -/
  | copy (table source : Nat)
  deriving DecidableEq, Repr

namespace TableCall

/-- What a call on tables answers, and the tables afterwards. -/
def onTables (hashOf : Handle → UInt32) (tables : Nat → InternTable) :
    TableCall → Option Bool × (Nat → InternTable)
  | insert n key =>
    let called := (tables n).insert key (hashOf key)
    (some called.1, Function.update tables n called.2)
  | delete n key =>
    let called := (tables n).delete key (hashOf key)
    (some called.1, Function.update tables n called.2)
  | contains n key => (some ((tables n).contains key (hashOf key)), tables)
  | addAll n source => (none, Function.update tables n ((tables n).addAll (tables source)))
  | copy n source => (none, Function.update tables n (tables source))

/-- What a call on sets answers, and the sets afterwards. -/
def onSets (sets : Nat → Finset Handle) : TableCall → Option Bool × (Nat → Finset Handle)
  | insert n key =>
    (some (decide (key ∉ sets n)), Function.update sets n (Insert.insert key (sets n)))
  | delete n key => (some (decide (key ∈ sets n)), Function.update sets n ((sets n).erase key))
  | contains n key => (some (decide (key ∈ sets n)), sets)
  | addAll n source => (none, Function.update sets n (sets n ∪ sets source))
  | copy n source => (none, Function.update sets n (sets source))

/-- The answers to some calls, and what they leave. -/
def answers {σ : Type} (call : σ → TableCall → Option Bool × σ) (state : σ) :
    List TableCall → List (Option Bool) × σ
  | [] => ([], state)
  | c :: calls =>
    let rest := answers call (call state c).2 calls
    ((call state c).1 :: rest.1, rest.2)

end TableCall

section
variable {hashOf : Handle → UInt32} {tables : Nat → InternTable} {sets : Nat → Finset Handle}

theorem standsFor_update (stand : ∀ n, StandsFor hashOf (tables n) (sets n)) {n : Nat}
    {t : InternTable} {s : Finset Handle} (stands : StandsFor hashOf t s) (m : Nat) :
    StandsFor hashOf (Function.update tables n t m) (Function.update sets n s m) := by
  rw [Function.update_apply, Function.update_apply]
  by_cases same : m = n
  · rw [if_pos same, if_pos same]
    exact stands
  · rw [if_neg same, if_neg same]
    exact stand m

/-- One call has the same answer on tables and on the sets they stand for. -/
theorem standsFor_call (stand : ∀ n, StandsFor hashOf (tables n) (sets n)) (c : TableCall) :
    (c.onTables hashOf tables).1 = (c.onSets sets).1 ∧
      ∀ n, StandsFor hashOf ((c.onTables hashOf tables).2 n) ((c.onSets sets).2 n) := by
  cases c with
  | insert n key =>
    obtain ⟨answer, stands⟩ := (stand n).insert key
    exact ⟨congrArg some answer, standsFor_update stand stands⟩
  | delete n key =>
    obtain ⟨answer, stands⟩ := (stand n).delete key
    exact ⟨congrArg some answer, standsFor_update stand stands⟩
  | contains n key => exact ⟨congrArg some ((stand n).contains key), stand⟩
  | addAll n source => exact ⟨rfl, standsFor_update stand ((stand n).addAll (stand source))⟩
  | copy n source => exact ⟨rfl, standsFor_update stand (stand source)⟩

/-- Any number of calls, by induction on them. -/
theorem standsFor_calls : ∀ (calls : List TableCall) {tables : Nat → InternTable}
    {sets : Nat → Finset Handle}, (∀ n, StandsFor hashOf (tables n) (sets n)) →
    (TableCall.answers (TableCall.onTables hashOf) tables calls).1 =
        (TableCall.answers TableCall.onSets sets calls).1 ∧
      ∀ n, StandsFor hashOf ((TableCall.answers (TableCall.onTables hashOf) tables calls).2 n)
        ((TableCall.answers TableCall.onSets sets calls).2 n)
  | [], _, _, stand => ⟨rfl, stand⟩
  | c :: calls, _, _, stand => by
    obtain ⟨answer, stand'⟩ := standsFor_call stand c
    obtain ⟨rest, stand''⟩ := standsFor_calls calls stand'
    refine ⟨?_, stand''⟩
    rw [TableCall.answers, TableCall.answers, answer, rest]

end

/-- **Tables are sets.** Tables that start empty, with any capacities, answer calls as sets that
start empty do. Each table then is valid (the capacity is a power of two from eight on, the counts
are exact, no more than three quarters of the slots are taken or marked, no slot between the home of
an entry and its own is empty), its entries are the members of its set with their hashes, each once,
and every search ends, also those made while the table grows. -/
theorem answers_of_sets (hashOf : Handle → UInt32) (capacities : Nat → Nat)
    (calls : List TableCall) :
    let onTables := TableCall.answers (TableCall.onTables hashOf)
      (fun n => ofCapacity (capacities n)) calls
    let onSets := TableCall.answers TableCall.onSets (fun _ => ∅) calls
    onTables.1 = onSets.1 ∧ ∀ n, let t := onTables.2 n
      t.Valid ∧ t.size = (onSets.2 n).card ∧
        t.entries.Perm ((onSets.2 n).toList.map fun key => (key, hashOf key)) ∧
        (∃ i : Nat, t.slots[i]? = some .empty) ∧ SearchesEnd t.slots ∧
        ∀ m, SearchesEnd ((t.entries.take m).foldl place
          (Array.replicate (t.capacity * 2) .empty)) := by
  obtain ⟨same, stand⟩ := standsFor_calls calls
    fun n => standsFor_ofCapacity hashOf (capacities n)
  refine ⟨same, fun n => ?_⟩
  have valid := (stand n).valid
  refine ⟨valid, (stand n).size_eq, (stand n).entries, valid.exists_empty,
    searchesEnd_of_empty valid.exists_empty, fun m => ?_⟩
  exact searchesEnd_of_empty (valid.exists_empty_growing m)

/-- Two handles with one home: the second stays in reach when the first is deleted. -/
example : (TableCall.answers (TableCall.onTables fun k => k.index % 2) (fun _ => ofCapacity 0)
    [.insert 0 ⟨3⟩, .insert 0 ⟨5⟩, .delete 0 ⟨3⟩, .insert 0 ⟨5⟩, .addAll 0 0, .addAll 1 0,
      .contains 1 ⟨5⟩]).1 =
    [some true, some true, some true, some false, none, none, some true] := by
  decide +kernel

end Pseudocode.InternTable
