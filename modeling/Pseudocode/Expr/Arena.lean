import Pseudocode.Expr.Basic
/-!
# Node storage

Nodes of syntax trees are stored in blocks. A full block is never moved: the next node goes to a new
block of half as many nodes again, so a node keeps its identifier for as long as the storage is not
released. An expression is read out of the storage by following identifiers from a root.

* `get?_alloc`: the node just stored is found under its identifier;
* `size_alloc`: storing a node is counted.
-/
namespace Pseudocode

structure NodeId where
  block : Nat
  slot : Nat
  deriving DecidableEq, Repr

/-- A node of a syntax tree, its operands given by identifiers. -/
inductive Payload where
  | literal (value : Literal)
  | unary (op : UnaryOp) (operand : NodeId)
  | group (inner : NodeId)
  | binary (op : BinaryOp) (left right : NodeId)
  deriving DecidableEq, Repr

structure Node where
  line : UInt32
  payload : Payload
  deriving DecidableEq, Repr

/-- A run of nodes with room for a fixed number of them. -/
structure Block where
  nodes : Array Node
  capacity : Nat
  deriving DecidableEq, Repr

structure Arena where
  /-- The blocks that are full, oldest first. -/
  full : Array Block
  /-- The block that takes the next node, unless it is full too. -/
  current : Block
  first : Nat
  /-- How many nodes were stored since the last release. -/
  size : Nat
  deriving DecidableEq, Repr

namespace Arena

/-- Empty storage whose first block has room for `capacity` nodes, and for one at least
(`NodeArena::with_capacity`). -/
def ofCapacity (capacity : Nat) : Arena :=
  ⟨#[], ⟨#[], max capacity 1⟩, max capacity 1, 0⟩

/-- Empty storage with a first block of the usual capacity (`NodeArena::new`). -/
def standard : Arena := ofCapacity 1024

/-- The capacity of the block after one of the given capacity: half as much again, rounded up
(`grow`). -/
def grow (capacity : Nat) : Nat := (capacity * 3 + 1) / 2

/-- Stores a node behind the others, in a new block if the last one is full (`NodeArena::alloc`). -/
def alloc (a : Arena) (node : Node) : NodeId × Arena :=
  if a.current.nodes.size < a.current.capacity then
    (⟨a.full.size, a.current.nodes.size⟩,
      { a with
        current := ⟨a.current.nodes.push node, a.current.capacity⟩
        size := a.size + 1 })
  else
    (⟨a.full.size + 1, 0⟩,
      { a with
        full := a.full.push a.current
        current := ⟨#[node], grow a.current.capacity⟩
        size := a.size + 1 })

def block? (a : Arena) (n : Nat) : Option Block :=
  if n = a.full.size then some a.current else a.full[n]?

/-- The node with an identifier (`NodeArena::get`). -/
def get? (a : Arena) (id : NodeId) : Option Node := (a.block? id.block).bind (·.nodes[id.slot]?)

def blocks (a : Arena) : List Block := a.full.toList ++ [a.current]

/-- The capacities of the blocks, oldest first (`block_capacities`). -/
def capacities (a : Arena) : List Nat := a.blocks.map Block.capacity

/-- The nodes in the blocks, oldest first. -/
def nodes (a : Arena) : List Node := a.blocks.flatMap fun b => b.nodes.toList

/-- Drops all nodes, and leaves a first block of the first capacity (`NodeArena::release`). -/
def release (a : Arena) : Arena := ⟨#[], ⟨#[], a.first⟩, a.first, 0⟩

/-- The expression below a node, if it is found within `fuel` levels. -/
def exprWithin (a : Arena) : Nat → NodeId → Option Expr
  | 0, _ => none
  | fuel + 1, id =>
    match a.get? id with
    | none => none
    | some ⟨line, .literal value⟩ => some (.literal line value)
    | some ⟨line, .unary op x⟩ => (a.exprWithin fuel x).map (.unary line op)
    | some ⟨line, .group x⟩ => (a.exprWithin fuel x).map (.group line)
    | some ⟨line, .binary op l r⟩ =>
      match a.exprWithin fuel l, a.exprWithin fuel r with
      | some l, some r => some (.binary line op l r)
      | _, _ => none

/-- The expression below a node. Where every node comes after its operands no way down is longer
than there are nodes, so this is `none` only if an identifier leads nowhere or in a circle. -/
def expr? (a : Arena) (id : NodeId) : Option Expr := a.exprWithin a.size id

/-- The node just stored is found under its identifier. -/
theorem get?_alloc (a : Arena) (node : Node) :
    (a.alloc node).2.get? (a.alloc node).1 = some node := by
  unfold alloc
  split <;> simp [get?, block?]

theorem size_alloc (a : Arena) (node : Node) : (a.alloc node).2.size = a.size + 1 := by
  unfold alloc
  split <;> rfl

end Arena

/-- A syntax tree in storage, with the source that its strings are ranges of. -/
structure Ast where
  source : String
  arena : Arena
  root : NodeId
  expr : Expr
  deriving DecidableEq, Repr

def Ast.ofArena? (source : String) (arena : Arena) (root : NodeId) : Option Ast :=
  (arena.expr? root).map fun expr => ⟨source, arena, root, expr⟩

end Pseudocode
