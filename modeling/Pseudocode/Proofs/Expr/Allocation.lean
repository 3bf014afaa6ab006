import Mathlib.Data.List.Nodup
import Pseudocode.Proofs.Expr.Storage
/-!
# Nodes in the order of their storing

The identifiers of a storage, oldest first, name every node once. A tree is visited in post-order:
operands from left to right, then the node. Where each operand is stored completely before the next
one, and the node behind them, the order of storing is that of the visit (`Adds`).

* `ids_alloc`, `mem_ids`, `nodup_ids`: the identifiers of a storage;
* `Visits`, `Unfolds.unique`: the tree below an identifier;
* `adds_alloc`: a node behind its operands, with `Adds.unary`, `Adds.group` and `Adds.binary`.
-/
namespace Pseudocode

namespace Arena

/-! ## Identifiers -/

/-- The identifiers of the nodes, oldest first. -/
def ids (a : Arena) : List NodeId :=
  a.blocks.zipIdx.flatMap fun (b, n) => (List.range b.nodes.size).map (NodeId.mk n)

theorem map_fst_entries (a : Arena) : a.entries.map Prod.fst = a.ids := by
  simp only [entries, ids, List.map_flatMap]
  refine congrArg (List.flatMap · _) (funext fun p => ?_)
  obtain ⟨b, n⟩ := p
  have slots : b.nodes.toList.zipIdx.map Prod.snd = List.range b.nodes.size := by
    rw [List.zipIdx_map_snd, Array.length_toList, List.range_eq_range']
  rw [← slots, List.map_map, List.map_map]
  rfl

theorem mem_ids {a : Arena} {id : NodeId} : id ∈ a.ids ↔ (a.get? id).isSome := by
  rw [← map_fst_entries, List.mem_map, Option.isSome_iff_exists]
  constructor
  · rintro ⟨⟨_, node⟩, inside, rfl⟩
    exact ⟨node, mem_entries.1 inside⟩
  · rintro ⟨node, found⟩
    exact ⟨(id, node), mem_entries.2 found, rfl⟩

theorem nodup_ids (a : Arena) : a.ids.Nodup := by
  rw [ids, List.nodup_flatMap]
  constructor
  · rintro ⟨b, n⟩ -
    refine (List.nodup_range).map fun i j same => ?_
    exact congrArg NodeId.slot same
  · -- nodes of different blocks differ in the number of the block
    have blocks : (a.blocks.zipIdx.map Prod.snd).Pairwise (· ≠ ·) := by
      rw [List.zipIdx_map_snd]
      exact List.nodup_range'
    refine (List.pairwise_map.1 blocks).imp ?_
    rintro ⟨b, n⟩ ⟨b', n'⟩ different id inside inside'
    obtain ⟨slot, -, rfl⟩ := List.mem_map.1 inside
    obtain ⟨slot', -, same⟩ := List.mem_map.1 inside'
    exact different (congrArg NodeId.block same).symm

theorem ids_alloc (a : Arena) (node : Node) :
    (a.alloc node).2.ids = a.ids ++ [(a.alloc node).1] := by
  rw [← map_fst_entries, entries_alloc, List.map_append, map_fst_entries]
  rfl

theorem ids_ofCapacity (capacity : Nat) : (ofCapacity capacity).ids = [] := by
  rw [← map_fst_entries, entries_ofCapacity]
  rfl

/-! ## Trees in post-order -/

/-- The identifier leads to the expression, and a post-order visit meets these identifiers. -/
inductive Visits (a : Arena) : NodeId → Expr → List NodeId → Prop where
  | literal {id : NodeId} {line : UInt32} {value : Literal}
    (found : a.get? id = some ⟨line, .literal value⟩) : Visits a id (.literal line value) [id]
  | unary {id x : NodeId} {line : UInt32} {op : UnaryOp} {e : Expr} {xs : List NodeId}
    (found : a.get? id = some ⟨line, .unary op x⟩) (operand : Visits a x e xs) :
    Visits a id (.unary line op e) (xs ++ [id])
  | group {id x : NodeId} {line : UInt32} {e : Expr} {xs : List NodeId}
    (found : a.get? id = some ⟨line, .group x⟩) (inner : Visits a x e xs) :
    Visits a id (.group line e) (xs ++ [id])
  | binary {id x y : NodeId} {line : UInt32} {op : BinaryOp} {l r : Expr} {xs ys : List NodeId}
    (found : a.get? id = some ⟨line, .binary op x y⟩) (left : Visits a x l xs)
    (right : Visits a y r ys) : Visits a id (.binary line op l r) (xs ++ ys ++ [id])

section
variable {a b : Arena} {id : NodeId} {e : Expr} {xs : List NodeId}

theorem Visits.unfolds (visits : a.Visits id e xs) : a.Unfolds id e := by
  induction visits with
  | literal found => exact .literal found
  | unary found _ operand => exact .unary found operand
  | group found _ inner => exact .group found inner
  | binary found _ _ left right => exact .binary found left right

theorem Visits.grows (visits : a.Visits id e xs) (grows : a.Grows b) : b.Visits id e xs := by
  induction visits with
  | literal found => exact .literal (grows.get? found)
  | unary found _ operand => exact .unary (grows.get? found) operand
  | group found _ inner => exact .group (grows.get? found) inner
  | binary found _ _ left right => exact .binary (grows.get? found) left right

/-- The root comes last. -/
theorem Visits.getLast? (visits : a.Visits id e xs) : xs.getLast? = some id := by
  cases visits <;> simp

/-- An identifier leads to one expression. -/
theorem Unfolds.unique {e' : Expr} (leads : a.Unfolds id e) (leads' : a.Unfolds id e') :
    e = e' := by
  have found := exprWithin_of_unfolds leads (Nat.le_max_left e.height e'.height)
  have found' := exprWithin_of_unfolds leads' (Nat.le_max_right e.height e'.height)
  exact Option.some.inj (found.symm.trans found')

end

/-- `b` is `a` with the nodes of one tree behind it, stored in post-order. -/
structure Adds (a : Arena) (id : NodeId) (e : Expr) (b : Arena) : Prop where
  grows : a.Grows b
  nodes : ∃ xs, b.Visits id e xs ∧ b.ids = a.ids ++ xs

section
variable {a b c : Arena} {x y : NodeId} {l r e : Expr} {xs : List NodeId}

theorem Adds.unfolds (adds : a.Adds x e b) : b.Unfolds x e := by
  obtain ⟨xs, visits, -⟩ := adds.nodes
  exact visits.unfolds

/-- A node is stored behind the operands, and visited behind them. -/
theorem adds_alloc {node : Node} (grows : a.Grows b) (order : b.ids = a.ids ++ xs)
    (visits : (b.alloc node).2.Visits (b.alloc node).1 e (xs ++ [(b.alloc node).1])) :
    a.Adds (b.alloc node).1 e (b.alloc node).2 := by
  refine ⟨grows.trans (b.grows_alloc node), _, visits, ?_⟩
  rw [ids_alloc, order, List.append_assoc]

theorem adds_literal (a : Arena) (line : UInt32) (value : Literal) :
    a.Adds (a.alloc ⟨line, .literal value⟩).1 (.literal line value)
      (a.alloc ⟨line, .literal value⟩).2 :=
  adds_alloc (.refl a) (List.append_nil _).symm (.literal (a.get?_alloc _))

theorem Adds.unary (adds : a.Adds x e b) (line : UInt32) (op : UnaryOp) :
    a.Adds (b.alloc ⟨line, .unary op x⟩).1 (.unary line op e)
      (b.alloc ⟨line, .unary op x⟩).2 := by
  obtain ⟨grows, xs, visits, order⟩ := adds
  exact adds_alloc grows order (.unary (b.get?_alloc _) (visits.grows (b.grows_alloc _)))

theorem Adds.group (adds : a.Adds x e b) (line : UInt32) :
    a.Adds (b.alloc ⟨line, .group x⟩).1 (.group line e) (b.alloc ⟨line, .group x⟩).2 := by
  obtain ⟨grows, xs, visits, order⟩ := adds
  exact adds_alloc grows order (.group (b.get?_alloc _) (visits.grows (b.grows_alloc _)))

theorem Adds.binary (left : a.Adds x l b) (right : b.Adds y r c) (line : UInt32)
    (op : BinaryOp) :
    a.Adds (c.alloc ⟨line, .binary op x y⟩).1 (.binary line op l r)
      (c.alloc ⟨line, .binary op x y⟩).2 := by
  obtain ⟨grows, xs, visits, order⟩ := left
  obtain ⟨grows', ys, visits', order'⟩ := right
  have more := c.grows_alloc ⟨line, .binary op x y⟩
  refine adds_alloc (grows.trans grows') ?_ (.binary (c.get?_alloc _)
    (visits.grows (grows'.trans more)) (visits'.grows more))
  rw [order', order, List.append_assoc]

end

end Arena

end Pseudocode
