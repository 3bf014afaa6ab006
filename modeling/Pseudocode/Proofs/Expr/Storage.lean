import Pseudocode.Expr.Arena
/-!
# Trees in storage

Storing a node leaves the nodes before it where they are. So where every node is stored after its
operands, no way down from a node is longer than there are nodes, and each identifier leads to an
expression. Nodes may be shared.

* `mem_entries`, `entries_alloc`: the nodes as one list, to which a new node is appended;
* `get?_of_alloc`: a node is found after an `alloc` just if it was there or is the new one;
* `Grows`: more was stored, so every node is where it was;
* `Unfolds`: an identifier leads to an expression;
* `expr?_of_unfolds`: the expression is what reading the storage finds;
* `Built.expr?`: reading the storage finds an expression below every node.
-/
namespace Pseudocode

def Payload.operands : Payload → List NodeId
  | literal _ => []
  | unary _ x => [x]
  | group x => [x]
  | binary _ l r => [l, r]

namespace Arena

/-! ## Nodes as one list -/

/-- The nodes with their identifiers, oldest first. -/
def entries (a : Arena) : List (NodeId × Node) :=
  a.blocks.zipIdx.flatMap fun (b, n) =>
    b.nodes.toList.zipIdx.map fun (node, slot) => (⟨n, slot⟩, node)

theorem block?_eq (a : Arena) (n : Nat) : a.block? n = a.blocks[n]? := by
  unfold block? blocks
  rcases Nat.lt_trichotomy n a.full.size with less | rfl | more
  · rw [if_neg (Nat.ne_of_lt less), List.getElem?_append_left (by simpa using less),
      Array.getElem?_toList]
  · rw [if_pos rfl, List.getElem?_append_right (by simp)]
    simp
  · rw [if_neg (Nat.ne_of_gt more), Array.getElem?_eq_none (Nat.le_of_lt more),
      List.getElem?_eq_none (by simp; omega)]

theorem mem_entries {a : Arena} {id : NodeId} {node : Node} :
    (id, node) ∈ a.entries ↔ a.get? id = some node := by
  rw [entries, List.mem_flatMap, get?, block?_eq, Option.bind_eq_some_iff]
  constructor
  · rintro ⟨⟨b, n⟩, block, inside⟩
    obtain ⟨⟨stored, slot⟩, place, same⟩ := List.mem_map.1 inside
    cases same
    refine ⟨b, List.mk_mem_zipIdx_iff_getElem?.1 block, ?_⟩
    rw [← Array.getElem?_toList]
    exact List.mk_mem_zipIdx_iff_getElem?.1 place
  · rintro ⟨b, block, place⟩
    rw [← Array.getElem?_toList] at place
    exact ⟨(b, id.block), List.mk_mem_zipIdx_iff_getElem?.2 block, List.mem_map.2
      ⟨(node, id.slot), List.mk_mem_zipIdx_iff_getElem?.2 place, rfl⟩⟩

theorem entries_ofCapacity (capacity : Nat) : (ofCapacity capacity).entries = [] := by
  simp [entries, blocks, ofCapacity]

/-- The new node is the last entry, in the block in use or in a new one. -/
theorem entries_alloc (a : Arena) (node : Node) :
    (a.alloc node).2.entries = a.entries ++ [((a.alloc node).1, node)] := by
  unfold alloc entries blocks
  split <;> simp [List.zipIdx_append]

/-! ## Storing a node -/

theorem get?_alloc_of_get? {a : Arena} {id : NodeId} {n : Node} (node : Node)
    (found : a.get? id = some n) : (a.alloc node).2.get? id = some n := by
  rw [← mem_entries, entries_alloc]
  exact List.mem_append_left _ (mem_entries.2 found)

/-- A node is found just if it was there before or is the new one. -/
theorem get?_of_alloc {a : Arena} {id : NodeId} {n node : Node}
    (found : (a.alloc node).2.get? id = some n) :
    a.get? id = some n ∨ id = (a.alloc node).1 ∧ n = node := by
  rw [← mem_entries, entries_alloc, List.mem_append, List.mem_singleton, mem_entries] at found
  rcases found with old | new
  · exact .inl old
  · cases new
    exact .inr ⟨rfl, rfl⟩

/-- More was stored: every node is still found under its identifier. -/
structure Grows (a b : Arena) : Prop where
  get? : ∀ {id : NodeId} {n : Node}, a.get? id = some n → b.get? id = some n
  size : a.size ≤ b.size

theorem Grows.refl (a : Arena) : a.Grows a := ⟨id, Nat.le_refl _⟩

theorem Grows.trans {a b c : Arena} (ab : a.Grows b) (bc : b.Grows c) : a.Grows c :=
  ⟨fun found => bc.get? (ab.get? found), Nat.le_trans ab.size bc.size⟩

theorem grows_alloc (a : Arena) (node : Node) : a.Grows (a.alloc node).2 where
  get? := get?_alloc_of_get? node
  size := by rw [size_alloc]; exact Nat.le_succ _

/-! ## Trees -/

/-- The identifier leads to the expression. -/
inductive Unfolds (a : Arena) : NodeId → Expr → Prop where
  | literal {id : NodeId} {line : UInt32} {value : Literal}
    (found : a.get? id = some ⟨line, .literal value⟩) : Unfolds a id (.literal line value)
  | unary {id x : NodeId} {line : UInt32} {op : UnaryOp} {e : Expr}
    (found : a.get? id = some ⟨line, .unary op x⟩) (operand : Unfolds a x e) :
    Unfolds a id (.unary line op e)
  | group {id x : NodeId} {line : UInt32} {e : Expr} (found : a.get? id = some ⟨line, .group x⟩)
    (inner : Unfolds a x e) : Unfolds a id (.group line e)
  | binary {id x y : NodeId} {line : UInt32} {op : BinaryOp} {l r : Expr}
    (found : a.get? id = some ⟨line, .binary op x y⟩) (left : Unfolds a x l)
    (right : Unfolds a y r) : Unfolds a id (.binary line op l r)

/-- An identifier leads to the same expression when more was stored. -/
theorem Unfolds.grows {a b : Arena} {id : NodeId} {e : Expr} (leads : a.Unfolds id e)
    (grows : a.Grows b) : b.Unfolds id e := by
  induction leads with
  | literal found => exact .literal (grows.get? found)
  | unary found _ operand => exact .unary (grows.get? found) operand
  | group found _ inner => exact .group (grows.get? found) inner
  | binary found _ _ left right => exact .binary (grows.get? found) left right

/-- An expression is found if it is no higher than the search goes. -/
theorem exprWithin_of_unfolds {a : Arena} {id : NodeId} {e : Expr} (leads : a.Unfolds id e) :
    ∀ {fuel : Nat}, e.height ≤ fuel → a.exprWithin fuel id = some e := by
  induction leads with
  | literal found =>
    intro fuel high
    obtain ⟨fuel, rfl⟩ := Nat.exists_eq_add_one.2 high
    rw [exprWithin, found]
  | unary found _ operand =>
    intro fuel high
    obtain ⟨fuel, rfl⟩ := Nat.exists_eq_add_one.2 (Nat.zero_lt_of_lt high)
    rw [exprWithin, found]
    simp only [operand (Nat.le_of_succ_le_succ high), Option.map_some]
  | group found _ inner =>
    intro fuel high
    obtain ⟨fuel, rfl⟩ := Nat.exists_eq_add_one.2 (Nat.zero_lt_of_lt high)
    rw [exprWithin, found]
    simp only [inner (Nat.le_of_succ_le_succ high), Option.map_some]
  | binary found _ _ left right =>
    intro fuel high
    obtain ⟨fuel, rfl⟩ := Nat.exists_eq_add_one.2 (Nat.zero_lt_of_lt high)
    have low := Nat.le_of_succ_le_succ high
    rw [exprWithin, found]
    simp only [left (Nat.le_trans (Nat.le_max_left _ _) low),
      right (Nat.le_trans (Nat.le_max_right _ _) low)]

theorem expr?_of_unfolds {a : Arena} {id : NodeId} {e : Expr} (leads : a.Unfolds id e)
    (high : e.height ≤ a.size) : a.expr? id = some e :=
  exprWithin_of_unfolds leads high

/-! ## Operands first -/

/-- The storage was filled with nodes whose operands were there before them. -/
inductive Built : Arena → Prop where
  | ofCapacity (capacity : Nat) : Built (ofCapacity capacity)
  | alloc {a : Arena} (built : Built a) (node : Node)
    (live : ∀ id ∈ node.payload.operands, (a.get? id).isSome) : Built (a.alloc node).2
  | release {a : Arena} (built : Built a) : Built a.release

/-- Storage without nodes has none under any identifier. -/
theorem get?_of_block_empty (id : NodeId) (capacity first size : Nat) :
    (⟨#[], ⟨#[], capacity⟩, first, size⟩ : Arena).get? id = none := by
  unfold get? block?
  split <;> rfl

/-- The new node leads to an expression if its operands did, and the expression is no higher than
there are nodes if theirs were not. -/
theorem unfolds_alloc {a : Arena} {node : Node}
    (below : ∀ id ∈ node.payload.operands, ∃ e, a.Unfolds id e ∧ e.height ≤ a.size) :
    ∃ e, (a.alloc node).2.Unfolds (a.alloc node).1 e ∧ e.height ≤ (a.alloc node).2.size := by
  have found := a.get?_alloc node
  have grows := a.grows_alloc node
  rw [size_alloc]
  obtain ⟨line, payload⟩ := node
  cases payload with
  | literal value => exact ⟨_, .literal found, Nat.succ_le_succ (Nat.zero_le _)⟩
  | unary op x =>
    obtain ⟨e, leads, high⟩ := below x (List.mem_singleton_self x)
    exact ⟨_, .unary found (leads.grows grows), Nat.succ_le_succ high⟩
  | group x =>
    obtain ⟨e, leads, high⟩ := below x (List.mem_singleton_self x)
    exact ⟨_, .group found (leads.grows grows), Nat.succ_le_succ high⟩
  | binary op x y =>
    obtain ⟨l, left, highL⟩ := below x (List.mem_cons_self ..)
    obtain ⟨r, right, highR⟩ := below y (List.mem_cons_of_mem _ (List.mem_singleton_self y))
    exact ⟨_, .binary found (left.grows grows) (right.grows grows),
      Nat.succ_le_succ (Nat.max_le.2 ⟨highL, highR⟩)⟩

theorem Built.unfolds {a : Arena} (built : a.Built) :
    ∀ {id : NodeId}, (a.get? id).isSome → ∃ e, a.Unfolds id e ∧ e.height ≤ a.size := by
  induction built with
  | ofCapacity capacity =>
    intro id live
    rw [Arena.ofCapacity, get?_of_block_empty] at live
    cases live
  | release _ _ =>
    intro id live
    rw [Arena.release, get?_of_block_empty] at live
    cases live
  | @alloc a _ node operands ih =>
    intro id live
    obtain ⟨n, found⟩ := Option.isSome_iff_exists.1 live
    rcases get?_of_alloc found with old | ⟨rfl, -⟩
    · obtain ⟨e, leads, high⟩ := ih (Option.isSome_iff_exists.2 ⟨n, old⟩)
      refine ⟨e, leads.grows (a.grows_alloc node), ?_⟩
      rw [size_alloc]
      exact Nat.le_succ_of_le high
    · exact unfolds_alloc fun id operand => ih (operands id operand)

/-- Reading the storage finds an expression below every node. -/
theorem Built.expr? {a : Arena} (built : a.Built) {id : NodeId} (live : (a.get? id).isSome) :
    ∃ e, a.expr? id = some e := by
  obtain ⟨e, leads, high⟩ := built.unfolds live
  exact ⟨e, expr?_of_unfolds leads high⟩

end Arena

end Pseudocode
