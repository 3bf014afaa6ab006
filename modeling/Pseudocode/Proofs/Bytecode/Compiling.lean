import Pseudocode.Proofs.Bytecode.Emission
import Pseudocode.Proofs.Machine.Evaluation
/-!
# What compiling writes

Compiling an expression writes behind the code there is and only adds strings to the heap. A literal
becomes an operation of its own or the load of a constant that stands for it.

* `Literal.StoredAs`: the constant that stands for a literal;
* `Literal.compile_cases`, `Literal.compile_eq_ok`: what is written for a literal;
* `Expr.grows_compile`: what an expression leaves alone.
-/
namespace Pseudocode

/-- The value stands for the literal in the pool: a scalar for itself, and a handle of the text
between the quotes for a string, while handles tell the strings of the heap apart; some string of
the heap it names in any case. -/
inductive Literal.StoredAs (source : String) (heap : Heap) : Literal → Value → Prop where
  | character (c : UInt8) : StoredAs source heap (.character c) (.character c)
  | real (x : Binary64) : StoredAs source heap (.real x) (.real x)
  | integer (n : Int64) : StoredAs source heap (.integer n) (.integer n)
  | string {start length : Nat} {r : Handle} {t : String} (quoted : 2 ≤ length)
    (cut : Text.slice? source (start + 1) (length - 2) = some t) (held : (heap.text? r).isSome)
    (live : heap.size ≤ UInt32.size → heap.text? r = some t) :
    StoredAs source heap (.string start length) (.string r)

theorem Literal.StoredAs.means {source : String} {heap : Heap} {value : Literal} {v : Value}
    (stored : value.StoredAs source heap v) (room : heap.size ≤ UInt32.size) :
    Means heap v (value.denote source) := by
  cases stored with
  | string quoted cut held live =>
    rw [denote, cut]
    exact .text (live room)
  | _ => constructor

theorem Literal.StoredAs.grows {source : String} {heap heap' : Heap} {value : Literal} {v : Value}
    (stored : value.StoredAs source heap v) (grows : heap.Grows heap') :
    value.StoredAs source heap' v := by
  cases stored with
  | string quoted cut held live =>
    exact .string quoted cut (grows.isSome_text? held) fun room =>
      grows.text? (live (Nat.le_trans grows.size_le room))
  | _ => constructor

section
variable {source : String} {line : UInt32} {heap heap' : Heap} {c d : Chunk}

theorem Compiled.andThen_eq_ok {done : Compiled} {next : Heap → Chunk → Compiled} :
    done.andThen next = (.ok d, heap') ↔
      ∃ c heap, done = (.ok c, heap) ∧ next heap c = (.ok d, heap') := by
  obtain ⟨r, h⟩ := done
  constructor
  · intro whole
    cases r with
    | error e => cases whole
    | ok c => exact ⟨c, h, rfl, whole⟩
  · intro given
    obtain ⟨c, heap, first, last⟩ := given
    rw [first]
    exact last

/-- A source that compiles is a tree that the parser accepts under the usual limits. -/
theorem compileSource_eq_ok (compiled : compileSource source heap = (.ok c, heap')) :
    ∃ ast, parse .standard .standard source = .ok ast ∧ ast.compile heap = (.ok c, heap') := by
  unfold compileSource at compiled
  cases parsed : parse .standard .standard source with
  | error e =>
    rw [parsed] at compiled
    cases compiled
  | ok ast =>
    rw [parsed] at compiled
    exact ⟨ast, rfl, compiled⟩

theorem Chunk.load_eq_ok {v : Value} (h : c.load heap v line = (.ok d, heap')) :
    heap' = heap ∧ c.constants.size < maxConstants ∧
      d = (c.withConstant v).writeAll (loadBytes c.constants.size) line := by
  unfold load at h
  split at h
  · rename_i index c' written
    cases h
    obtain ⟨room, rfl, rfl⟩ := writeConstant_eq_ok_iff.1 written
    exact ⟨rfl, room, rfl⟩
  · cases h

/-- A literal is written as an operation of its own if it is a truth value, and as the load of the
constant that stands for it if not. At most one string is added for it. -/
theorem Literal.compile_cases {value : Literal}
    (h : value.compile source line heap c = (.ok d, heap')) :
    (∃ b, value = .boolean b ∧ heap' = heap ∧
      d = c.write (if b then Opcode.pushTrue else .pushFalse).toByte line) ∨
    (∃ v, c.load heap' v line = (.ok d, heap') ∧ value.StoredAs source heap' v ∧
      heap.Grows heap' ∧ heap'.size ≤ heap.size + 1) := by
  unfold compile at h
  split at h
  · cases h
    exact .inl ⟨true, rfl, rfl, rfl⟩
  · cases h
    exact .inl ⟨false, rfl, rfl, rfl⟩
  · obtain ⟨rfl, -⟩ := Chunk.load_eq_ok h
    exact .inr ⟨_, h, .character _, .refl _, Nat.le_succ _⟩
  · obtain ⟨rfl, -⟩ := Chunk.load_eq_ok h
    exact .inr ⟨_, h, .real _, .refl _, Nat.le_succ _⟩
  · obtain ⟨rfl, -⟩ := Chunk.load_eq_ok h
    exact .inr ⟨_, h, .integer _, .refl _, Nat.le_succ _⟩
  · rename_i start length
    split at h
    · cases h
    · rename_i r heap₁ found
      obtain ⟨rfl, -⟩ := Chunk.load_eq_ok h
      unfold Heap.literal? at found
      split at found
      · cases found
      rename_i quoted
      obtain ⟨text, cut, interned⟩ := Heap.refString?_eq_some_iff.1 found
      have grows := heap.grows_intern (.ofText text false)
      have few := heap.size_intern_le (.ofText text false)
      have held := heap.isSome_text?_intern (.ofText text false)
      have meaning := heap.text?_intern (.ofText text false)
      rw [interned] at grows few held meaning
      exact .inr ⟨_, h, .string (Nat.le_of_not_lt quoted) cut held meaning, grows, few⟩

/-- The constant that a literal is loaded from has the meaning of the literal. -/
theorem Literal.compile_eq_ok {value : Literal}
    (h : value.compile source line heap c = (.ok d, heap')) :
    (∃ b, value = .boolean b ∧ heap' = heap ∧
      d = c.write (if b then Opcode.pushTrue else .pushFalse).toByte line) ∨
    (∃ v, c.load heap' v line = (.ok d, heap') ∧ heap.Grows heap' ∧
      (heap'.size ≤ UInt32.size → Means heap' v (value.denote source))) := by
  rcases compile_cases h with truth | ⟨v, loaded, stored, grows, -⟩
  · exact .inl truth
  · exact .inr ⟨v, loaded, grows, stored.means⟩

theorem Chunk.grows_load {v : Value} (h : c.load heap v line = (.ok d, heap')) : c.Grows d := by
  obtain ⟨-, -, rfl⟩ := load_eq_ok h
  exact (grows_withConstant c v).trans (grows_writeAll _ _ _)

/-- Compiling writes behind the code, and adds to the heap. -/
theorem Expr.grows_compile {e : Expr} : ∀ {heap heap' : Heap} {c d : Chunk},
    e.compile source heap c = (.ok d, heap') → c.Grows d ∧ heap.Grows heap' := by
  induction e with
  | literal line value =>
    intro heap heap' c d h
    rcases Literal.compile_eq_ok h with ⟨b, -, rfl, rfl⟩ | ⟨v, loaded, grows, -⟩
    · exact ⟨c.grows_write _ line, .refl _⟩
    · exact ⟨Chunk.grows_load loaded, grows⟩
  | group line x ih => exact fun h => ih h
  | unary line op x ih =>
    intro heap heap' c d h
    obtain ⟨c₁, heap₁, first, last⟩ := Compiled.andThen_eq_ok.1 h
    cases last
    obtain ⟨code, grows⟩ := ih first
    exact ⟨code.trans (c₁.grows_write _ line), grows⟩
  | binary line op l r ihl ihr =>
    intro heap heap' c d h
    obtain ⟨c₁, heap₁, first, h⟩ := Compiled.andThen_eq_ok.1 h
    obtain ⟨c₂, heap₂, second, last⟩ := Compiled.andThen_eq_ok.1 h
    cases last
    obtain ⟨code₁, grows₁⟩ := ihl first
    obtain ⟨code₂, grows₂⟩ := ihr second
    exact ⟨(code₁.trans code₂).trans (c₂.grows_write _ line), grows₁.trans grows₂⟩

end

end Pseudocode
