import Mathlib.Data.List.Forall2
import Pseudocode.Proofs.Bytecode.Compiling
import Pseudocode.Proofs.Bytecode.Decoding
import Pseudocode.Proofs.Expr.Recognition
import Pseudocode.Proofs.Expr.Storage
/-!
# Compiled code is the expression in post-order

One instruction for each node of the tree that is no group, operands before their operator, and a
return behind them. A literal that is no truth value has a constant of its own, so constants are
numbered in the order of the instructions that load them.

* `Expr.postOrder`: the nodes in the order of their instructions;
* `Visit.layOut`: the instructions, each with its offset and the number of its constant;
* `Expr.spelled_compile`: the code of an expression, by induction on the expression;
* `Expr.stores_compile`: the constants of an expression, by induction on the expression.
-/
namespace Pseudocode

/-! ## Instructions as they should be -/

/-- What an instruction of compiled code does. -/
inductive Action where
  | literal (value : Literal)
  | unary (op : UnaryOp)
  | binary (op : BinaryOp)
  | finish
  deriving DecidableEq, Repr

namespace Action

/-- The literal that an action loads from the pool: any that is no truth value. -/
def loaded? : Action → Option Literal
  | literal (.boolean _) => none
  | literal value => some value
  | _ => none

/-- The operation of an action; `rank` is the number of constants before it. -/
def opcode (rank : Nat) : Action → Opcode
  | literal (.boolean true) => .pushTrue
  | literal (.boolean false) => .pushFalse
  | literal _ => if rank ≤ 255 then .constant else .constantLong
  | unary .not => .not
  | unary .negate => .negate
  | binary .add => .add
  | binary .subtract => .subtract
  | binary .multiply => .multiply
  | binary .divide => .divide
  | binary .quotient => .quotient
  | binary .remainder => .remainder
  | binary .and => .and
  | binary .or => .or
  | binary .concat => .concat
  | binary .equal => .equal
  | binary .notEqual => .notEqual
  | binary .greater => .greater
  | binary .greaterEqual => .greaterEqual
  | binary .less => .less
  | binary .lessEqual => .lessEqual
  | finish => .finish

/-- The operators are written as the operations that they stand for. -/
theorem opcode_unary (rank : Nat) (op : UnaryOp) : (unary op).opcode rank = .ofUnary op := by
  cases op <;> rfl

theorem opcode_binary (rank : Nat) (op : BinaryOp) : (binary op).opcode rank = .ofBinary op := by
  cases op <;> rfl

end Action

/-- An action with its line. -/
structure Visit where
  line : UInt32
  action : Action
  deriving DecidableEq, Repr

namespace Visit

def instruction (v : Visit) (offset rank : Nat) : Instruction :=
  ⟨offset, v.action.opcode rank, v.action.loaded?.map fun _ => rank, v.line⟩

/-- The rank of the constant behind those before the visit and its own. -/
def nextRank (v : Visit) (rank : Nat) : Nat := rank + v.action.loaded?.toList.length

/-- The instructions of the visits, each behind the one before it. -/
def layOut : Nat → Nat → List Visit → List Instruction
  | _, _, [] => []
  | offset, rank, v :: vs =>
    let i := v.instruction offset rank
    i :: layOut (offset + i.width) (v.nextRank rank) vs

end Visit

namespace Expr

/-- The nodes that are no groups, operands before their operator. -/
def postOrder : Expr → List Visit
  | literal line value => [⟨line, .literal value⟩]
  | unary line op x => x.postOrder ++ [⟨line, .unary op⟩]
  | group _ x => x.postOrder
  | binary line op l r => l.postOrder ++ (r.postOrder ++ [⟨line, .binary op⟩])

/-- The nodes in post-order, and the return of the value with the line of the root. -/
def visits (e : Expr) : List Visit := e.postOrder ++ [⟨e.line, .finish⟩]

/-- The literals that are loaded from the pool, in order. -/
def loaded (e : Expr) : List Literal := e.postOrder.filterMap fun v => v.action.loaded?

end Expr

/-- The chunk is the expression in post-order, its constants are those of the literals, in order,
and compiling added no more strings than there are constants to the heap `before`. The instructions
are all there is in the code, which is disassembled if the lines of all bytes can be counted. -/
structure Chunk.Spells (c : Chunk) (source : String) (before after : Heap) (e : Expr) : Prop where
  code : c.Lays 0 (Visit.layOut 0 0 e.visits) c.size
  disassemble : c.size < 2 ^ 32 → c.disassemble = .ok (Visit.layOut 0 0 e.visits)
  constants : List.Forall₂ (Literal.StoredAs source after) e.loaded c.constants.toList
  few : after.size ≤ before.size + e.loaded.length
  room : e.loaded.length ≤ Chunk.maxConstants

/-! ## Code that is laid out -/

/-- From `offset` and with `rank` constants before it, the code of the chunk is that of the visits,
up to `offset'` and `rank'`. -/
inductive Chunk.Spelled (c : Chunk) : Nat → Nat → List Visit → Nat → Nat → Prop where
  | nil (offset rank : Nat) : Spelled c offset rank [] offset rank
  | cons {v : Visit} {vs : List Visit} {offset rank offset' rank' : Nat}
    (here : c.Holds (v.instruction offset rank))
    (rest : Spelled c (offset + (v.instruction offset rank).width) (v.nextRank rank) vs offset'
      rank') :
    Spelled c offset rank (v :: vs) offset' rank'

namespace Chunk
variable {c : Chunk}

theorem Spelled.append {vs ws : List Visit} {o₁ r₁ o₂ r₂ o₃ r₃ : Nat}
    (front : c.Spelled o₁ r₁ vs o₂ r₂) (back : c.Spelled o₂ r₂ ws o₃ r₃) :
    c.Spelled o₁ r₁ (vs ++ ws) o₃ r₃ := by
  induction front with
  | nil => exact back
  | cons here _ ih => exact .cons here (ih back)

/-- Code that is spelled is there as it is laid out. -/
theorem Spelled.lays {vs : List Visit} {offset rank last rank' : Nat}
    (spelled : c.Spelled offset rank vs last rank') :
    c.Lays offset (Visit.layOut offset rank vs) last := by
  induction spelled with
  | nil offset rank => exact .nil offset
  | cons here _ ih => exact .cons here ih

/-- A visit that is written as one byte is found in every chunk that goes on from there. -/
theorem spelled_write {d : Chunk} {v : Visit} (rank : Nat) (lined : c.Lined)
    (plain : v.action.loaded? = none) (short : (v.action.opcode rank).operandSize = 0)
    (inside : (c.write (v.action.opcode rank).toByte v.line).Grows d) :
    d.Spelled c.size rank [v] (c.size + 1) rank := by
  have same : v.instruction c.size rank = ⟨c.size, v.action.opcode rank, none, v.line⟩ := by
    rw [Visit.instruction, plain]
    rfl
  have width : (v.instruction c.size rank).width = 1 := by
    rw [Instruction.width, Visit.instruction, short]
  have last : v.nextRank rank = rank := by
    rw [Visit.nextRank, plain]
    rfl
  refine .cons (same ▸ holds_write short lined inside) ?_
  rw [width, last]
  exact .nil _ _

/-- A literal that is written as the load of its constant. -/
theorem spelled_load {d : Chunk} {value : Literal} {line : UInt32} {v : Value}
    (lined : c.Lined) (loads : (Action.literal value).loaded? = some value)
    (small : c.constants.size < maxConstants)
    (inside : ((c.withConstant v).writeAll (loadBytes c.constants.size) line).Grows d) :
    d.Spelled c.size c.constants.size [⟨line, .literal value⟩]
      (c.size + (loadBytes c.constants.size).length) (c.constants.size + 1) := by
  have op : (Action.literal value).opcode c.constants.size = loadOpcode c.constants.size := by
    cases value with
    | boolean b => cases loads
    | _ => rfl
  have same : (⟨line, .literal value⟩ : Visit).instruction c.size c.constants.size =
      ⟨c.size, loadOpcode c.constants.size, some c.constants.size, line⟩ := by
    rw [Visit.instruction, loads, op]
    rfl
  refine .cons (same ▸ holds_load lined small inside) ?_
  rw [same, Instruction.width, Visit.nextRank, loads, length_loadBytes]
  exact .nil _ _

end Chunk

/-! ## Expressions -/

section
variable {source : String} {whole : Chunk}

theorem Literal.StoredAs.loaded?_eq {heap : Heap} {value : Literal} {v : Value}
    (stored : value.StoredAs source heap v) : (Action.literal value).loaded? = some value := by
  cases stored <;> rfl

theorem Literal.spelled_compile {value : Literal} {line : UInt32} {heap heap' : Heap}
    {c d : Chunk} (h : value.compile source line heap c = (.ok d, heap')) (lined : c.Lined)
    (inside : d.Grows whole) :
    whole.Spelled c.size c.constants.size [⟨line, .literal value⟩] d.size d.constants.size := by
  rcases compile_cases h with ⟨b, rfl, -, rfl⟩ | ⟨v, loaded, stored, -⟩
  · have op : (Action.literal (.boolean b)).opcode c.constants.size =
        if b then .pushTrue else .pushFalse := by cases b <;> rfl
    have short : ((Action.literal (.boolean b)).opcode c.constants.size).operandSize = 0 := by
      cases b <;> rfl
    rw [← op] at inside ⊢
    rw [Chunk.size_write]
    exact Chunk.spelled_write (v := ⟨line, .literal (.boolean b)⟩) _ lined rfl short inside
  · obtain ⟨-, small, rfl⟩ := Chunk.load_eq_ok loaded
    rw [Chunk.size_writeAll, Chunk.constants_writeAll, Chunk.withConstant, Array.size_push]
    exact Chunk.spelled_load lined stored.loaded?_eq small inside

/-- The code of an expression, by induction on the expression. -/
theorem Expr.spelled_compile {e : Expr} : ∀ {heap heap' : Heap} {c d : Chunk},
    e.compile source heap c = (.ok d, heap') → c.Lined → d.Grows whole →
    whole.Spelled c.size c.constants.size e.postOrder d.size d.constants.size := by
  induction e with
  | literal line value =>
    intro heap heap' c d h lined inside
    exact Literal.spelled_compile h lined inside
  | group line x ih => exact ih
  | unary line op x ih =>
    intro heap heap' c d h lined inside
    obtain ⟨c₁, heap₁, first, last⟩ := Compiled.andThen_eq_ok.1 h
    cases last
    obtain ⟨code₁, -⟩ := Expr.grows_compile first
    have operand := ih first lined ((c₁.grows_write _ line).trans inside)
    have short : (Opcode.ofUnary op).operandSize = 0 := by cases op <;> rfl
    rw [Chunk.size_write]
    rw [← Action.opcode_unary c₁.constants.size] at inside short
    exact operand.append
      (Chunk.spelled_write (v := ⟨line, .unary op⟩) _ (code₁.lined lined) rfl short inside)
  | binary line op l r ihl ihr =>
    intro heap heap' c d h lined inside
    obtain ⟨c₁, heap₁, first, h⟩ := Compiled.andThen_eq_ok.1 h
    obtain ⟨c₂, heap₂, second, last⟩ := Compiled.andThen_eq_ok.1 h
    cases last
    obtain ⟨code₁, -⟩ := Expr.grows_compile first
    obtain ⟨code₂, -⟩ := Expr.grows_compile second
    have inside₂ := (c₂.grows_write _ line).trans inside
    have left := ihl first lined (code₂.trans inside₂)
    have right := ihr second (code₁.lined lined) inside₂
    have short : (Opcode.ofBinary op).operandSize = 0 := by cases op <;> rfl
    rw [Chunk.size_write]
    rw [← Action.opcode_binary c₂.constants.size] at inside short
    exact left.append (right.append (Chunk.spelled_write (v := ⟨line, .binary op⟩) _
      ((code₁.trans code₂).lined lined) rfl short inside))

/-! ## Constants -/

/-- Going from `c` to `d` put constants for the literals behind those of `c`, one for each, and no
more strings than that on the heap. -/
structure Chunk.Stores (source : String) (c d : Chunk) (heap heap' : Heap)
    (loaded : List Literal) : Prop where
  constants : ∃ vs, d.constants.toList = c.constants.toList ++ vs ∧
    List.Forall₂ (Literal.StoredAs source heap') loaded vs
  few : heap'.size ≤ heap.size + loaded.length
  room : c.constants.size ≤ maxConstants → d.constants.size ≤ maxConstants

theorem Chunk.Stores.append {c₁ c₂ c₃ : Chunk} {heap₁ heap₂ heap₃ : Heap}
    {first second : List Literal} (front : Stores source c₁ c₂ heap₁ heap₂ first)
    (back : Stores source c₂ c₃ heap₂ heap₃ second) (grows : heap₂.Grows heap₃) :
    Stores source c₁ c₃ heap₁ heap₃ (first ++ second) := by
  obtain ⟨vs, whole, stored⟩ := front.constants
  obtain ⟨ws, whole', stored'⟩ := back.constants
  refine ⟨⟨vs ++ ws, ?_, ?_⟩, ?_, fun room => back.room (front.room room)⟩
  · rw [whole', whole, List.append_assoc]
  · exact List.rel_append (stored.imp fun _ _ one => one.grows grows) stored'
  · have := front.few
    have := back.few
    rw [List.length_append]
    omega

/-- A byte that is written has no constant. -/
theorem Chunk.stores_write (c : Chunk) (heap : Heap) (b : UInt8) (line : UInt32) :
    Stores source c (c.write b line) heap heap [] :=
  ⟨⟨[], (List.append_nil _).symm, .nil⟩, Nat.le_refl _, id⟩

theorem Literal.stores_compile {value : Literal} {line : UInt32} {heap heap' : Heap}
    {c d : Chunk} (h : value.compile source line heap c = (.ok d, heap')) :
    c.Stores source d heap heap' (Action.literal value).loaded?.toList := by
  rcases compile_cases h with ⟨b, rfl, rfl, rfl⟩ | ⟨v, loaded, stored, -, few⟩
  · exact c.stores_write _ _ _
  · obtain ⟨-, small, rfl⟩ := Chunk.load_eq_ok loaded
    rw [stored.loaded?_eq]
    refine ⟨⟨[v], ?_, .cons stored .nil⟩, few, fun _ => ?_⟩
    · rw [Chunk.constants_writeAll, Chunk.withConstant, Array.toList_push]
    · rw [Chunk.constants_writeAll, Chunk.withConstant, Array.size_push]
      exact small

theorem Expr.loaded_unary (line : UInt32) (op : UnaryOp) (x : Expr) :
    (unary line op x).loaded = x.loaded ++ [] := by
  simp [loaded, postOrder, Action.loaded?]

theorem Expr.loaded_binary (line : UInt32) (op : BinaryOp) (l r : Expr) :
    (binary line op l r).loaded = l.loaded ++ (r.loaded ++ []) := by
  simp [loaded, postOrder, Action.loaded?]

theorem Expr.loaded_literal (line : UInt32) (value : Literal) :
    (literal line value).loaded = (Action.literal value).loaded?.toList := by
  rw [loaded, postOrder, List.filterMap_cons]
  cases (Action.literal value).loaded? <;> rfl

/-- The constants of an expression, by induction on the expression. -/
theorem Expr.stores_compile {e : Expr} : ∀ {heap heap' : Heap} {c d : Chunk},
    e.compile source heap c = (.ok d, heap') → c.Stores source d heap heap' e.loaded := by
  induction e with
  | literal line value =>
    intro heap heap' c d h
    rw [loaded_literal]
    exact Literal.stores_compile h
  | group line x ih => exact ih
  | unary line op x ih =>
    intro heap heap' c d h
    obtain ⟨c₁, heap₁, first, last⟩ := Compiled.andThen_eq_ok.1 h
    cases last
    rw [loaded_unary]
    exact (ih first).append (c₁.stores_write _ _ _) (.refl _)
  | binary line op l r ihl ihr =>
    intro heap heap' c d h
    obtain ⟨c₁, heap₁, first, h⟩ := Compiled.andThen_eq_ok.1 h
    obtain ⟨c₂, heap₂, second, last⟩ := Compiled.andThen_eq_ok.1 h
    cases last
    obtain ⟨-, grows⟩ := Expr.grows_compile second
    rw [loaded_binary]
    exact (ihl first).append ((ihr second).append (c₂.stores_write _ _ _) (.refl _)) grows

end

/-! ## Trees and sources -/

/-- The code of a tree is laid out as its expression in post-order, with the return behind it. -/
theorem Ast.spelled_compile {ast : Ast} {heap heap' : Heap} {c : Chunk}
    (h : ast.compile heap = (.ok c, heap')) :
    c.Spelled 0 0 ast.expr.visits c.size c.constants.size := by
  obtain ⟨body, heap₁, compiled, last⟩ := Compiled.andThen_eq_ok.1 h
  cases last
  have inside := body.grows_write Opcode.finish.toByte ast.expr.line
  obtain ⟨code, -⟩ := Expr.grows_compile compiled
  have nodes := Expr.spelled_compile compiled Chunk.lined_empty inside
  have last := Chunk.spelled_write (v := ⟨ast.expr.line, .finish⟩) body.constants.size
    (code.lined Chunk.lined_empty) rfl rfl (.refl _)
  rw [Chunk.size_write]
  exact nodes.append last

/-- The chunk of a tree is its expression in post-order. -/
theorem Ast.spells_compile {ast : Ast} {heap heap' : Heap} {c : Chunk}
    (h : ast.compile heap = (.ok c, heap')) : c.Spells ast.source heap heap' ast.expr := by
  have code := (Ast.spelled_compile h).lays
  obtain ⟨body, heap₁, compiled, last⟩ := Compiled.andThen_eq_ok.1 h
  cases last
  have stores := Expr.stores_compile compiled
  obtain ⟨vs, whole, stored⟩ := stores.constants
  change body.constants.toList = vs at whole
  refine ⟨code, fun few => (code.lists few).disassembleFrom rfl, ?_, stores.few, ?_⟩
  · change List.Forall₂ _ _ body.constants.toList
    rw [whole]
    exact stored
  · rw [stored.length_eq, ← whole, Array.length_toList]
    exact stores.room (Nat.zero_le _)

theorem Compiled.exists_of_isOk {done : Compiled} (accepted : done.1.isOk = true) :
    ∃ c heap, done = (.ok c, heap) := by
  obtain ⟨result, heap⟩ := done
  cases result with
  | error e => cases accepted
  | ok c => exact ⟨c, heap, rfl⟩

end Pseudocode
