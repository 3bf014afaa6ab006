import Mathlib.Data.List.Chain
import Mathlib.Data.List.DropRight
import Mathlib.Data.Rat.Floor
import Mathlib.Tactic.Linarith
import Pseudocode.Proofs.Expr.Allocation
/-!
# Identifiers that stay

A ledger keeps beside a storage what was given out since the last release. It always says the same
as the blocks do, whichever block a node went to.

* `Packed`: how blocks are filled and how large they are, with a law for each call;
* `Ledger.Sound.after`, `Ledger.sound_afterCalls`: the ledger and the blocks agree after one call
  more, so after any calls;
* `Ledger.identifiers_stable`: what a user of storage may rely on.
-/
namespace Pseudocode

/-- The identifier as two words of 32 bits hold it. -/
def NodeId.inWords (id : NodeId) : NodeId :=
  ⟨(UInt32.ofNat id.block).toNat, (UInt32.ofNat id.slot).toNat⟩

namespace Arena

/-- No part of an identifier in use is too large for a word while there are few blocks, none of them
with many nodes. -/
theorem inWords_of_get? {a : Arena} {id : NodeId} {node : Node} (few : a.blocks.length < 2 ^ 32)
    (short : ∀ b ∈ a.blocks, b.nodes.size < 2 ^ 32) (found : a.get? id = some node) :
    id.inWords = id := by
  rw [get?, block?_eq] at found
  obtain ⟨b, block, slot⟩ := Option.bind_eq_some_iff.1 found
  have number : id.block < 2 ^ 32 := (List.getElem?_eq_some_iff.1 block).1.trans few
  have place : id.slot < 2 ^ 32 :=
    (Array.getElem?_eq_some_iff.1 slot).1.trans (short b (List.mem_of_getElem? block))
  rw [NodeId.inWords, UInt32.toNat_ofNat_of_lt' number, UInt32.toNat_ofNat_of_lt' place]

theorem map_snd_entries (a : Arena) : a.entries.map Prod.snd = a.nodes := by
  simp only [entries, nodes, List.map_flatMap]
  conv_rhs => rw [← List.zipIdx_map_fst 0 a.blocks, List.flatMap_map]
  refine congrArg (List.flatMap · _) (funext fun p => ?_)
  rw [List.map_map]
  exact List.zipIdx_map_fst 0 p.1.nodes.toList

theorem length_entries (a : Arena) : a.entries.length = a.nodes.length := by
  rw [← map_snd_entries, List.length_map]

/-! ## Blocks -/

/-- A new block is one and a half times as large as the one before, rounded up. -/
theorem grow_eq_ceil (capacity : Nat) : (grow capacity : Int) = ⌈(3 / 2 : ℚ) * capacity⌉ := by
  have twice : 2 * grow capacity = 3 * capacity ∨ 2 * grow capacity = 3 * capacity + 1 := by
    unfold grow
    omega
  symm
  rw [Int.ceil_eq_iff, Int.cast_natCast]
  rcases twice with even | odd
  · have even' : (2 * grow capacity : ℚ) = 3 * capacity := mod_cast even
    constructor <;> linarith
  · have odd' : (2 * grow capacity : ℚ) = 3 * capacity + 1 := mod_cast odd
    constructor <;> linarith

theorem getLast?_capacities (a : Arena) : a.capacities.getLast? = some a.current.capacity := by
  simp [capacities, blocks]

/-- A block is added only when the one in use is full. -/
theorem capacities_alloc (a : Arena) (node : Node) : (a.alloc node).2.capacities =
    if a.current.nodes.size < a.current.capacity then a.capacities
    else a.capacities ++ [grow a.current.capacity] := by
  unfold alloc
  split <;> simp [capacities, blocks]

/-- The blocks of storage that was asked for with a first capacity and filled node by node. -/
structure Packed (first : Nat) (a : Arena) : Prop where
  asked : a.first = max first 1
  full : ∀ b ∈ a.full.toList, b.nodes.size = b.capacity
  wide : 0 < a.current.capacity
  room : a.current.nodes.size ≤ a.current.capacity
  begun : 0 < a.size → 0 < a.current.nodes.size
  counted : a.size = a.entries.length
  oldest : a.capacities.head? = some (max first 1)
  chain : a.capacities.IsChain fun c d => d = grow c

section
variable {first : Nat} {a : Arena}

theorem packed_ofCapacity (first : Nat) : (ofCapacity first).Packed first where
  asked := rfl
  full := nofun
  wide := Nat.le_max_right _ _
  room := Nat.zero_le _
  begun := id
  counted := by rw [entries_ofCapacity]; rfl
  oldest := rfl
  chain := .singleton _

/-- The block in use takes nodes until it is full. Then it is one of the full blocks, and the new
block in use has a node. -/
theorem Packed.alloc (packed : a.Packed first) (node : Node) : (a.alloc node).2.Packed first := by
  have capacities := a.capacities_alloc node
  have counted : (a.alloc node).2.size = (a.alloc node).2.entries.length := by
    rw [size_alloc, entries_alloc, List.length_append, ← packed.counted]
    rfl
  unfold Arena.alloc at capacities counted ⊢
  by_cases room : a.current.nodes.size < a.current.capacity
  · rw [if_pos room, if_pos room] at capacities
    rw [if_pos room] at counted ⊢
    exact {
      asked := packed.asked
      full := packed.full
      wide := packed.wide
      room := by rw [Array.size_push]; exact room
      begun := fun _ => by rw [Array.size_push]; exact Nat.succ_pos _
      counted := counted
      oldest := by rw [capacities]; exact packed.oldest
      chain := by rw [capacities]; exact packed.chain }
  · rw [if_neg room, if_neg room] at capacities
    rw [if_neg room] at counted ⊢
    have filled : a.current.nodes.size = a.current.capacity :=
      Nat.le_antisymm packed.room (Nat.le_of_not_lt room)
    have larger : 0 < grow a.current.capacity := by
      have := packed.wide
      unfold grow
      omega
    exact {
      asked := packed.asked
      full := fun b inside => by
        rw [Array.toList_push, List.mem_append, List.mem_singleton] at inside
        rcases inside with old | rfl
        · exact packed.full b old
        · exact filled
      wide := larger
      room := larger
      begun := fun _ => Nat.one_pos
      counted := counted
      oldest := by rw [capacities, List.head?_append, packed.oldest, Option.some_or]
      chain := by
        rw [capacities]
        refine packed.chain.append (.singleton _) fun c last d next => ?_
        rw [getLast?_capacities] at last
        cases last
        cases next
        rfl }

/-- Released storage is as new. -/
theorem Packed.release_eq (packed : a.Packed first) : a.release = ofCapacity first := by
  rw [release, ofCapacity, packed.asked]

end

end Arena

/-! ## Calls -/

/-- What changes storage. -/
inductive ArenaCall where
  | alloc (node : Node)
  | release
  deriving DecidableEq, Repr

/-- Storage with the identifiers it gave out since it was last released, oldest first, each with the
node it was given for. -/
structure Ledger where
  arena : Arena
  issued : List (NodeId × Node)

namespace Ledger

def after (l : Ledger) : ArenaCall → Ledger
  | .alloc node => ⟨(l.arena.alloc node).2, l.issued ++ [((l.arena.alloc node).1, node)]⟩
  | .release => ⟨l.arena.release, []⟩

/-- Some calls on empty storage. -/
def afterCalls (first : Nat) (calls : List ArenaCall) : Ledger :=
  calls.foldl after ⟨.ofCapacity first, []⟩

/-- The ledger is about the calls since the last release, and the blocks hold what it says. -/
structure Sound (first : Nat) (calls : List ArenaCall) (l : Ledger) : Prop where
  packed : l.arena.Packed first
  entries : l.arena.entries = l.issued
  recent : calls.rtakeWhile (· ≠ .release) = l.issued.map fun e => .alloc e.2

theorem Sound.after {first : Nat} {calls : List ArenaCall} {l : Ledger}
    (sound : l.Sound first calls) (call : ArenaCall) :
    (l.after call).Sound first (calls ++ [call]) := by
  cases call with
  | alloc node =>
    refine ⟨sound.packed.alloc node, ?_, ?_⟩
    · show (l.arena.alloc node).2.entries = l.issued ++ [((l.arena.alloc node).1, node)]
      rw [Arena.entries_alloc, sound.entries]
    · rw [List.rtakeWhile_concat_pos _ _ _ (by simp), sound.recent]
      simp [Ledger.after]
  | release =>
    have fresh : l.arena.release = .ofCapacity first := sound.packed.release_eq
    refine ⟨?_, ?_, ?_⟩
    · show l.arena.release.Packed first
      rw [fresh]
      exact Arena.packed_ofCapacity first
    · show l.arena.release.entries = []
      rw [fresh, Arena.entries_ofCapacity]
    · rw [List.rtakeWhile_concat_neg _ _ _ (by simp)]
      rfl

theorem sound_afterCalls (first : Nat) (calls : List ArenaCall) :
    (afterCalls first calls).Sound first calls := by
  induction calls using List.reverseRecOn with
  | nil => exact ⟨Arena.packed_ofCapacity first, Arena.entries_ofCapacity first, rfl⟩
  | append_singleton calls call ih =>
    rw [afterCalls, List.foldl_append]
    exact ih.after call

/-- Nothing that was given out is forgotten while nodes are stored. -/
theorem issued_prefix (l : Ledger) (later : List Node) :
    l.issued <+: ((later.map .alloc).foldl after l).issued := by
  induction later generalizing l with
  | nil => exact List.prefix_rfl
  | cons node later ih => exact (List.prefix_append _ _).trans (ih (l.after (.alloc node)))

/-- **Identifiers stay.** After any calls on storage of any first capacity the ledger lists what was
stored since the last release. The identifiers in it are all different, and they alone lead to
nodes, each to the one that was stored, also after any more nodes are stored. Two words of 32 bits
hold them while there are fewer than `2 ^ 32` blocks and fewer than `2 ^ 32` nodes in each. The
size, which is counted, is the number of nodes stored since the last release, and just that of the
nodes in the blocks. Every block but the last is full, and the last has a node unless there is none
at all. The first block is as large as asked for, one node at least, and each other block one and a
half times as large as the one before, rounded up. Once released the storage is as new. -/
theorem identifiers_stable (first : Nat) (calls : List ArenaCall) :
    let l := afterCalls first calls
    calls.rtakeWhile (· ≠ .release) = l.issued.map (fun e => .alloc e.2) ∧
    (l.issued.map Prod.fst).Nodup ∧
    (∀ id node, l.arena.get? id = some node ↔ (id, node) ∈ l.issued) ∧
    (∀ (later : List Node) (id node), (id, node) ∈ l.issued →
      (afterCalls first (calls ++ later.map .alloc)).arena.get? id = some node) ∧
    (l.arena.blocks.length < 2 ^ 32 → (∀ b ∈ l.arena.blocks, b.nodes.size < 2 ^ 32) →
      ∀ e ∈ l.issued, e.1.inWords = e.1) ∧
    l.arena.size = (calls.rtakeWhile (· ≠ .release)).length ∧
    l.arena.size = l.arena.nodes.length ∧
    (∃ front last, l.arena.blocks = front ++ [last] ∧
      (∀ b ∈ front, b.nodes.size = b.capacity) ∧ last.nodes.size ≤ last.capacity ∧
      (0 < l.arena.size → 0 < last.nodes.size)) ∧
    l.arena.capacities.head? = some (max 1 first) ∧
    l.arena.capacities.IsChain (fun c next : Nat => (next : Int) = ⌈(3 / 2 : ℚ) * c⌉) ∧
    l.arena.release = .ofCapacity first := by
  intro l
  have sound : l.Sound first calls := sound_afterCalls first calls
  have packed := sound.packed
  have found (id : NodeId) (node : Node) :
      l.arena.get? id = some node ↔ (id, node) ∈ l.issued := by
    rw [← sound.entries, Arena.mem_entries]
  refine ⟨sound.recent, ?_, found, fun later id node given => ?_, fun few short e given => ?_, ?_,
    ?_, ⟨l.arena.full.toList, l.arena.current, rfl, packed.full, packed.room, packed.begun⟩, ?_, ?_,
    packed.release_eq⟩
  · rw [← sound.entries, Arena.map_fst_entries]
    exact l.arena.nodup_ids
  · have sound' := sound_afterCalls first (calls ++ later.map ArenaCall.alloc)
    rw [← Arena.mem_entries, sound'.entries, afterCalls, List.foldl_append, ← afterCalls]
    exact (l.issued_prefix later).mem given
  · exact Arena.inWords_of_get? few short ((found e.1 e.2).2 given)
  · rw [sound.recent, List.length_map, ← sound.entries, packed.counted]
  · rw [packed.counted, Arena.length_entries]
  · rw [Nat.max_comm]
    exact packed.oldest
  · refine packed.chain.imp fun c next grown => ?_
    rw [grown, Arena.grow_eq_ceil]

/-- A release, then four nodes in blocks of one, two and three, and three more behind them. -/
theorem identifiers_stable_released :
    let node (n : Int64) : Node := ⟨1, .literal (.integer n)⟩
    let l := afterCalls 0
      [.alloc (node 8), .alloc (node 9), .release, .alloc (node 1), .alloc (node 2),
        .alloc (node 3), .alloc (node 4)]
    let longer := afterCalls 0
      [.alloc (node 8), .alloc (node 9), .release, .alloc (node 1), .alloc (node 2),
        .alloc (node 3), .alloc (node 4), .alloc (node 5), .alloc (node 6), .alloc (node 7)]
    l.issued = [(⟨0, 0⟩, node 1), (⟨1, 0⟩, node 2), (⟨1, 1⟩, node 3), (⟨2, 0⟩, node 4)] ∧
      l.arena.blocks.length < 2 ^ 32 ∧ (∀ b ∈ l.arena.blocks, b.nodes.size < 2 ^ 32) ∧
      (∀ e ∈ l.issued, e.1.inWords = e.1) ∧
      (⟨1, 1⟩, node 3) ∈ l.issued ∧ longer.arena.get? ⟨1, 1⟩ = some (node 3) ∧
      l.arena.capacities = [1, 2, 3] ∧ longer.arena.capacities = [1, 2, 3, 5] := by
  intro node l longer
  obtain ⟨-, -, -, later, words, -⟩ := identifiers_stable 0
    [.alloc (node 8), .alloc (node 9), .release, .alloc (node 1), .alloc (node 2),
      .alloc (node 3), .alloc (node 4)]
  have few : l.arena.blocks.length < 2 ^ 32 := by decide
  have short : ∀ b ∈ l.arena.blocks, b.nodes.size < 2 ^ 32 := by decide
  have given : (⟨1, 1⟩, node 3) ∈ l.issued := by decide
  exact ⟨by decide, few, short, words few short, given,
    later [node 5, node 6, node 7] ⟨1, 1⟩ (node 3) given, by decide, by decide⟩

end Ledger

end Pseudocode
