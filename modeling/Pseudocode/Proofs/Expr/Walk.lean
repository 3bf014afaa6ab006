import Pseudocode.Compilation
import Pseudocode.Expr.Printer
import Pseudocode.Proofs.Expr.Storage
/-!
# Computations on stored trees

Compiling and printing are computations on a tree: what they make of a node depends on its line, its
kind and what they made of the operands (`Walk`). In storage such a computation follows identifiers
from node to node, and the height of the tree is how many of its calls are active at once.

* `walkWithin_of_unfolds`: what a computation comes to, and within which depth;
* `fold_compileWalk`, `fold_renderWalk`: compiling and printing.
-/
namespace Pseudocode

/-- A computation on a tree: what it makes of each kind of node, given what it made of the
operands. -/
structure Walk (α : Type) where
  literal : UInt32 → Literal → α
  unary : UInt32 → UnaryOp → α → α
  group : UInt32 → α → α
  binary : UInt32 → BinaryOp → α → α → α

section
variable {α : Type}

def Expr.fold (w : Walk α) : Expr → α
  | literal line value => w.literal line value
  | unary line op x => w.unary line op (x.fold w)
  | group line x => w.group line (x.fold w)
  | binary line op l r => w.binary line op (l.fold w) (r.fold w)

/-- The computation on the tree below a node, made by a function that calls itself on the operands,
if no more than `depth` of its calls have to be active at once. -/
def Arena.walkWithin (w : Walk α) (a : Arena) : Nat → NodeId → Option α
  | 0, _ => none
  | depth + 1, id =>
    match a.get? id with
    | none => none
    | some ⟨line, .literal value⟩ => some (w.literal line value)
    | some ⟨line, .unary op x⟩ => (a.walkWithin w depth x).map (w.unary line op)
    | some ⟨line, .group x⟩ => (a.walkWithin w depth x).map (w.group line)
    | some ⟨line, .binary op l r⟩ =>
      match a.walkWithin w depth l, a.walkWithin w depth r with
      | some l, some r => some (w.binary line op l r)
      | _, _ => none

theorem Expr.height_pos (e : Expr) : 0 < e.height := by
  cases e <;> exact Nat.succ_pos _

/-- The height of a tree is how many calls are active at once. -/
theorem Arena.walkWithin_of_unfolds {a : Arena} {id : NodeId} {e : Expr} (w : Walk α)
    (leads : a.Unfolds id e) : ∀ depth,
      a.walkWithin w depth id = if e.height ≤ depth then some (e.fold w) else none := by
  intro depth
  induction depth generalizing id e with
  | zero =>
    rw [if_neg (Nat.not_le.2 e.height_pos)]
    rfl
  | succ depth ih =>
    rw [walkWithin]
    cases leads with
    | literal found => simp [found, Expr.height, Expr.fold]
    | unary found operand =>
      rw [found]
      simp only [ih operand, Expr.height, Nat.add_le_add_iff_right]
      split <;> rfl
    | group found inner =>
      rw [found]
      simp only [ih inner, Expr.height, Nat.add_le_add_iff_right]
      split <;> rfl
    | @binary _ _ _ _ _ l r found left right =>
      rw [found]
      simp only [ih left, ih right, Expr.height, Nat.add_le_add_iff_right, Nat.max_le]
      by_cases low : l.height ≤ depth <;> by_cases low' : r.height ≤ depth <;>
        simp [low, low', Expr.fold]

end

/-- Compiling, as a computation on a tree. -/
def compileWalk (source : String) : Walk (Heap → Chunk → Compiled) where
  literal line value heap c := value.compile source line heap c
  unary line op x heap c :=
    Compiled.andThen (x heap c) fun heap c => (.ok (c.write (Opcode.ofUnary op).toByte line), heap)
  group _ x := x
  binary line op l r heap c :=
    Compiled.andThen (l heap c) fun heap c =>
      Compiled.andThen (r heap c) fun heap c =>
        (.ok (c.write (Opcode.ofBinary op).toByte line), heap)

/-- Printing, as a computation on a tree. -/
def renderWalk (source : String) : Walk (Option String) where
  literal _ value := value.render source
  unary _ op x := do return "(" ++ op.text ++ " " ++ (← x) ++ ")"
  group _ x := do return "(" ++ (← x) ++ ")"
  binary _ op l r := do return "(" ++ (← l) ++ " " ++ op.text ++ " " ++ (← r) ++ ")"

theorem fold_compileWalk (source : String) (e : Expr) :
    e.fold (compileWalk source) = e.compile source := by
  induction e with
  | literal line value => rfl
  | group line x ih => exact ih
  | unary line op x ih =>
    funext heap c
    simp only [Expr.fold, Expr.compile, ih]
    rfl
  | binary line op l r left right =>
    funext heap c
    simp only [Expr.fold, Expr.compile, left, right]
    rfl

theorem fold_renderWalk (source : String) (e : Expr) :
    e.fold (renderWalk source) = e.render source := by
  induction e with
  | literal line value => rfl
  | group line x ih => simp only [Expr.fold, Expr.render, ih]; rfl
  | unary line op x ih => simp only [Expr.fold, Expr.render, ih]; rfl
  | binary line op l r left right => simp only [Expr.fold, Expr.render, left, right]; rfl

end Pseudocode
