import Pseudocode.Proofs.Bytecode.Compiling
import Pseudocode.Proofs.Machine.Simulation
/-!
# Values that operators cannot tell apart

Whether an operator has a result does not hang on truth values or on texts, only on the types of its
operands and on numbers. So a value fits a constant if it is the same number or character, any truth
value for a truth value, or the handle of any string for a text. An operator that has a result for
constants has a fitting one for values that fit them. This holds of heaps of any size, also where
handles no longer tell strings apart.

* `Fits`: the relation;
* `Memory.pushes_applyUnary`, `Memory.pushes_applyBinary`: what an operator pushes.
-/
namespace Pseudocode

/-- The value may stand where the constant is expected. -/
inductive Fits (heap : Heap) : Value → Constant → Prop where
  | boolean (x y : Bool) : Fits heap (.boolean x) (.boolean y)
  | character (c : UInt8) : Fits heap (.character c) (.character c)
  | real (x : Binary64) : Fits heap (.real x) (.real x)
  | integer (n : Int64) : Fits heap (.integer n) (.integer n)
  | text {r : Handle} (t : String) (held : (heap.text? r).isSome) : Fits heap (.string r) (.text t)

theorem Fits.grows {heap heap' : Heap} {v : Value} {a : Constant} (fits : Fits heap v a)
    (grows : heap.Grows heap') : Fits heap' v a := by
  cases fits with
  | text t held => exact .text t (grows.isSome_text? held)
  | _ => constructor

theorem Literal.StoredAs.fits {source : String} {heap : Heap} {value : Literal} {v : Value}
    (stored : value.StoredAs source heap v) : Fits heap v (value.denote source) := by
  cases stored with
  | string quoted cut held live => exact .text _ held
  | _ => constructor

/-! ## Results -/

section
variable {heap : Heap} {v w : Value} {a b r : Constant}

theorem Means.fits (means : Means heap v a) : Fits heap v a := by
  cases means with
  | text live => exact .text _ (Option.isSome_iff_exists.2 ⟨_, live⟩)
  | boolean x => exact .boolean x x
  | _ => constructor

theorem exists_of_agrees {result : Except RunFault Value} {told : Except RunFault Constant}
    (agrees : Agrees heap result told) (done : told = .ok r) :
    ∃ x, result = .ok x ∧ Fits heap x r := by
  cases agrees with
  | error f => cases done
  | ok means =>
    cases done
    exact ⟨_, rfl, means.fits⟩

theorem exists_of_arithmetic (left : Fits heap v a) (right : Fits heap w b) {op : BinaryOp}
    (arithmetic : op.isArithmetic = true) (done : op.apply a b = .ok r) :
    ∃ x, Pseudocode.arithmetic (.ofBinary op) v w = .ok x ∧ Fits heap x r := by
  rcases BinaryOp.numbers_of_apply arithmetic done with ⟨x, y, rfl, rfl⟩ | ⟨x, y, rfl, rfl⟩
  · cases left
    cases right
    exact exists_of_agrees (agrees_applyArithmetic (.integer x) (.integer y) arithmetic) done
  · cases left
    cases right
    exact exists_of_agrees (agrees_applyArithmetic (.real x) (.real y) arithmetic) done

theorem exists_of_compared (left : Fits heap v a) (right : Fits heap w b) {op : Opcode}
    {meets : Ordering → Bool} (done : a.compared op meets b = .ok r) :
    ∃ x, comparison op v w = .ok x ∧ Fits heap x r := by
  cases left <;> cases right <;> cases done <;> exact ⟨_, rfl, .boolean _ _⟩

end

/-! ## What operators push -/

namespace Memory
variable {m : Memory} {v w : Value} {rest : List Value} {a b r : Constant}

/-- The effect pushes a value that fits the constant onto `rest`. -/
def Pushes (m : Memory) (rest : List Value) (effect : Effect) (r : Constant) : Prop :=
  ∃ x heap, effect = (m.leave rest heap).push x ∧ Fits heap x r ∧ m.heap.Grows heap

theorem pushes_finish {result : Except RunFault Value}
    (done : ∃ x, result = .ok x ∧ Fits m.heap x r) :
    m.Pushes rest ((m.leave rest m.heap).finish result) r := by
  obtain ⟨x, rfl, fits⟩ := done
  exact ⟨x, m.heap, rfl, fits, .refl _⟩

theorem pushes_binary (stack : m.stack.values = w :: v :: rest)
    {f : Value → Value → Except RunFault Value} (done : ∃ x, f v w = .ok x ∧ Fits m.heap x r) :
    m.Pushes rest (m.binary f) r := by
  rw [binary, pop_eq stack, pop_eq rfl]
  exact pushes_finish (m := m) done

theorem pushes_logical (stack : m.stack.values = w :: v :: rest) (left : Fits m.heap v a)
    (right : Fits m.heap w b) {op : Opcode} {f : Bool → Bool → Bool}
    (done : a.connective op f b = .ok r) : m.Pushes rest (m.logical op f) r := by
  rw [logical, pop_eq stack]
  cases right with
  | boolean y y' =>
    cases left with
    | boolean x x' =>
      cases done
      change m.Pushes rest (unary (m.leave (_ :: rest) m.heap) _) _
      rw [unary, pop_eq rfl]
      exact ⟨_, m.heap, rfl, .boolean _ _, .refl _⟩
    | _ => cases done
  | _ => cases done

theorem pushes_concat (stack : m.stack.values = w :: v :: rest) (left : Fits m.heap v a)
    (right : Fits m.heap w b) (done : a.joined b = .ok r) : m.Pushes rest m.concat r := by
  rw [concat, pop_eq stack, pop_eq rfl]
  cases left with
  | text t held =>
    cases right with
    | text t' held' =>
      cases done
      rename_i x y
      obtain ⟨s, found⟩ := Option.isSome_iff_exists.1 held
      obtain ⟨s', found'⟩ := Option.isSome_iff_exists.1 held'
      let object := StringObject.ofText (s ++ s') true
      have joined : m.heap.concat? x y = some (m.heap.push object) := by
        rw [Heap.concat?, found, found']
        rfl
      have named : ((m.heap.push object).2.text? (m.heap.push object).1).isSome :=
        m.heap.isSome_text?_push object m.heap.interned
      refine ⟨.string (m.heap.push object).1, (m.heap.push object).2, ?_, .text _ named,
        m.heap.grows_push object⟩
      have effect := concatenation_of_concat joined
      simp only [leave]
      rw [effect]
      rfl
    | _ => cases done
  | _ => cases done

/-- A unary operator that has a result pushes one that fits it. -/
theorem pushes_applyUnary (stack : m.stack.values = v :: rest) (fits : Fits m.heap v a)
    {op : UnaryOp} (done : op.apply a = .ok r) (c : Chunk) (offset : Nat) :
    m.Pushes rest (m.execute c offset (Opcode.ofUnary op)) r := by
  cases op with
  | not =>
    change m.Pushes rest (m.unary _) r
    rw [unary, pop_eq stack]
    refine pushes_finish ?_
    cases fits with
    | boolean x y =>
      cases done
      exact ⟨_, rfl, .boolean _ _⟩
    | _ => cases done
  | negate =>
    change m.Pushes rest (m.unary _) r
    rw [unary, pop_eq stack]
    refine pushes_finish ?_
    cases fits with
    | integer n => exact exists_of_agrees (agrees_negation (.integer n)) done
    | real x => exact exists_of_agrees (agrees_negation (.real x)) done
    | _ => cases done

/-- A binary operator that has a result pushes one that fits it. -/
theorem pushes_applyBinary (stack : m.stack.values = w :: v :: rest) (left : Fits m.heap v a)
    (right : Fits m.heap w b) {op : BinaryOp} (done : op.apply a b = .ok r) (c : Chunk)
    (offset : Nat) : m.Pushes rest (m.execute c offset (Opcode.ofBinary op)) r := by
  have numbers (arithmetic : op.isArithmetic = true) :=
    exists_of_arithmetic left right arithmetic done
  cases op with
  | add | subtract | multiply | divide | quotient | remainder =>
    exact pushes_binary stack (numbers rfl)
  | and | or => exact pushes_logical stack left right done
  | concat => exact pushes_concat stack left right done
  | equal | notEqual =>
    cases done
    exact pushes_binary stack ⟨_, rfl, .boolean _ _⟩
  | greater | greaterEqual | less | lessEqual =>
    exact pushes_binary stack (exists_of_compared left right done)

theorem pushes_load {c : Chunk} {offset index : Nat} {op : Opcode}
    (carried : c.loadIndex? offset op = some index) (found : c.constants[index]? = some v)
    (fits : Fits m.heap v a) : m.Pushes m.stack.values (m.load c offset op) a := by
  rw [load, carried]
  simp only [found]
  exact ⟨v, m.heap, rfl, fits, .refl _⟩

end Memory

end Pseudocode
