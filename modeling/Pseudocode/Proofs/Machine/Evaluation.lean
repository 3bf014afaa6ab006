import Pseudocode.Compilation
import Pseudocode.Image.Basic
import Pseudocode.Machine.Operation
import Pseudocode.Proofs.Heap.Growth
import Pseudocode.Proofs.Machine.Integers
import Pseudocode.Proofs.Results
/-!
# What an expression means

The meaning of an expression is defined by recursion on its tree, without code, stack or heap: the
left operand, the right operand, then the operator. Nothing is left out, so both operands of `AND`
and `OR` are evaluated. Integers are computed without bounds and must fit in the end. A string is
its text, and an error has the line of the operator that failed.

* `BinaryOp.apply`: what each operator does;
* `Expr.eval`: the value of an expression, or its first error;
* `agrees_applyArithmetic`, `agrees_comparison`, `agrees_not`, `agrees_negation`: the operations of
  the machine, whose strings are handles, agree with the operators on meanings;
* `isOperand_of_eval`: the errors of an expression come from the operands of its operators.
-/
namespace Pseudocode

/-! ## Kinds of fault -/

namespace RunFault

/-- Does the fault come from a limit of the machine? -/
def isLimit : RunFault → Bool
  | stepLimit _ | stackLimit _ => true
  | _ => false

/-- Does the fault come from the operands of an operator? -/
def isOperand : RunFault → Bool
  | operandType _ _ _ | mixedTypes _ _ _ | divisionByZero | overflow _ => true
  | _ => false

end RunFault

/-! ## Operators -/

namespace Constant

def type : Constant → ValueType
  | boolean _ => .boolean
  | character _ => .character
  | real _ => .real
  | integer _ => .integer
  | text _ => .string

/-- An exact result as a constant, if there is one and it has 64 bits. -/
def ofExact (op : Opcode) : Option Int → Except RunFault Constant
  | none => .error .divisionByZero
  | some n =>
    if Fits64 n then .ok (integer (Int64.ofInt n)) else .error (.overflow op)

/-- An operator on two numbers of one type: on integers by its exact result, and on reals if it
takes any. The first operand that is no number is reported. -/
def arithmetic (op : Opcode) (integers? : Int → Int → Option Int)
    (reals? : Option (Binary64 → Binary64 → Binary64)) :
    Constant → Constant → Except RunFault Constant
  | integer x, integer y => ofExact op (integers? x.toInt y.toInt)
  | real x, real y =>
    match reals? with
    | some f => .ok (real (f x y))
    | none => .error (.operandType op .integers .real)
  | integer _, real _ => .error (.mixedTypes op .integer .real)
  | real _, integer _ => .error (.mixedTypes op .real .integer)
  | integer _, b | real _, b => .error (.operandType op .numbers b.type)
  | a, _ => .error (.operandType op .numbers a.type)

def truth (op : Opcode) : Constant → Except RunFault Bool
  | boolean b => .ok b
  | a => .error (.operandType op .booleans a.type)

/-- A connective of two truth values. The right operand is checked first. -/
def connective (op : Opcode) (f : Bool → Bool → Bool) (a b : Constant) :
    Except RunFault Constant := do
  let y ← b.truth op
  let x ← a.truth op
  return boolean (f x y)

/-- Two texts joined. The first operand that is no text is reported. -/
def joined : Constant → Constant → Except RunFault Constant
  | text x, text y => .ok (text (x ++ y))
  | text _, b => .error (.operandType .concat .strings b.type)
  | a, _ => .error (.operandType .concat .strings a.type)

/-- A comparison by order of two operands of one type, which must not be texts. What does not
compare meets no comparison. -/
def compared (op : Opcode) (meets : Ordering → Bool) : Constant → Constant →
    Except RunFault Constant
  | boolean x, boolean y => .ok (boolean (meets (compare x.toNat y.toNat)))
  | character x, character y => .ok (boolean (meets (compare x.toNat y.toNat)))
  | integer x, integer y => .ok (boolean (meets (compare x.toInt y.toInt)))
  | real x, real y => .ok (boolean (((x.compare? y).map meets).getD false))
  | text _, text _ => .error (.operandType op .ordered .string)
  | a, b => .error (.mixedTypes op a.type b.type)

end Constant

def UnaryOp.apply : UnaryOp → Constant → Except RunFault Constant
  | .not, .boolean b => .ok (.boolean !b)
  | .not, a => .error (.operandType .not .booleans a.type)
  | .negate, .integer n => Constant.ofExact .negate (some (-n.toInt))
  | .negate, .real x => .ok (.real x.neg)
  | .negate, a => .error (.operandType .negate .aNumber a.type)

/-- The result of a division, which there is by any number but zero. -/
def unlessZero (f : Int → Int → Int) (x y : Int) : Option Int :=
  if y = 0 then none else some (f x y)

/-- The operators. Only `/` divides reals; on integers it drops the fraction, as `DIV` does. -/
def BinaryOp.apply (op : BinaryOp) (a b : Constant) : Except RunFault Constant :=
  match op with
  | .add => a.arithmetic .add (fun x y => some (x + y)) (some .add) b
  | .subtract => a.arithmetic .subtract (fun x y => some (x - y)) (some .sub) b
  | .multiply => a.arithmetic .multiply (fun x y => some (x * y)) (some .mul) b
  | .divide => a.arithmetic .divide (unlessZero Int.tdiv) (some .div) b
  | .quotient => a.arithmetic .quotient (unlessZero Int.tdiv) none b
  | .remainder => a.arithmetic .remainder (unlessZero Int.tmod) none b
  | .and => a.connective .and (· && ·) b
  | .or => a.connective .or (· || ·) b
  | .concat => a.joined b
  | .equal => .ok (.boolean (a = b))
  | .notEqual => .ok (.boolean (a ≠ b))
  | .greater => a.compared .greater Ordering.isGT b
  | .greaterEqual => a.compared .greaterEqual Ordering.isGE b
  | .less => a.compared .less Ordering.isLT b
  | .lessEqual => a.compared .lessEqual Ordering.isLE b

/-! ## Expressions -/

/-- The constant that a literal stands for; a string is the text between its quotes. -/
def Literal.denote (source : String) : Literal → Constant
  | .boolean b => .boolean b
  | .character c => .character c
  | .real x => .real x
  | .integer n => .integer n
  | .string start length => .text ((Text.slice? source (start + 1) (length - 2)).getD "")

/-- The value of an expression, or its first error. -/
def Expr.eval (source : String) : Expr → Except RunError Constant
  | .literal _ value => .ok (value.denote source)
  | .group _ x => x.eval source
  | .unary line op x => do
    let a ← x.eval source
    (op.apply a).mapError fun f => ⟨f, some line⟩
  | .binary line op l r => do
    let a ← l.eval source
    let b ← r.eval source
    (op.apply a b).mapError fun f => ⟨f, some line⟩

/-! ## Values and their meanings -/

/-- The value stands for the constant: a scalar for itself, a handle for the text on the heap. -/
inductive Means (heap : Heap) : Value → Constant → Prop where
  | boolean (b : Bool) : Means heap (.boolean b) (.boolean b)
  | character (c : UInt8) : Means heap (.character c) (.character c)
  | real (x : Binary64) : Means heap (.real x) (.real x)
  | integer (n : Int64) : Means heap (.integer n) (.integer n)
  | text {r : Handle} {t : String} (live : heap.text? r = some t) : Means heap (.string r) (.text t)

theorem means_iff {heap : Heap} {v : Value} {a : Constant} :
    Means heap v a ↔ Constant.ofValue? heap v = some a := by
  constructor
  · intro means
    cases means <;> simp_all [Constant.ofValue?]
  · intro found
    cases v with
    | string r =>
      obtain ⟨t, live, rfl⟩ := Option.map_eq_some_iff.1 found
      exact .text live
    | _ => cases found; constructor

theorem Means.grows {heap heap' : Heap} {v : Value} {a : Constant} (means : Means heap v a)
    (grows : heap.Grows heap') : Means heap' v a := by
  cases means with
  | text live => exact .text (grows.text? live)
  | _ => constructor

theorem Means.isEqual {heap : Heap} {v w : Value} {a b : Constant} (left : Means heap v a)
    (right : Means heap w b) : v.isEqual heap w = decide (a = b) := by
  cases left with
  | text live =>
    cases right with
    | text live' =>
      rename_i r t r' t'
      by_cases same : r = r'
      · subst same
        have : t = t' := Option.some.inj (live.symm.trans live')
        simp [Value.isEqual, this]
      · simp [Value.isEqual, live, live', same, Bool.beq_eq_decide_eq]
    | _ => rfl
  | _ => cases right <;> first | rfl | simp [Value.isEqual, Bool.beq_eq_decide_eq]

/-- A result on values stands for a result on constants: the same fault, or a value of that
meaning. -/
inductive Agrees (heap : Heap) : Except RunFault Value → Except RunFault Constant → Prop where
  | ok {v : Value} {a : Constant} (means : Means heap v a) : Agrees heap (.ok v) (.ok a)
  | error (f : RunFault) : Agrees heap (.error f) (.error f)

/-! ## The operations of the machine -/

theorem agrees_checked (heap : Heap) (op : Opcode) (n : Int) :
    Agrees heap ((checked op n).map .integer) (Constant.ofExact op (some n)) := by
  rw [Constant.ofExact]
  by_cases fits : Fits64 n
  · obtain ⟨r, accepted, exact⟩ := checked_of_fits64 op fits
    rw [accepted, if_pos fits, ← exact, Int64.ofInt_toInt]
    exact .ok (.integer r)
  · rw [checked_of_not_fits64 op fits, if_neg fits]
    exact .error _

theorem agrees_division (heap : Heap) (op : Opcode) (f : Int → Int → Int) (x y : Int64) :
    Agrees heap
      ((if y = 0 then .error .divisionByZero else checked op (f x.toInt y.toInt)).map .integer)
      (Constant.ofExact op (unlessZero f x.toInt y.toInt)) := by
  rw [unlessZero]
  by_cases zero : y = 0
  · rw [if_pos zero, if_pos (toInt_eq_zero_iff.2 zero)]
    exact .error _
  · rw [if_neg zero, if_neg (mt toInt_eq_zero_iff.1 zero)]
    exact agrees_checked heap op _

/-- Is it an operator on numbers? -/
def BinaryOp.isArithmetic : BinaryOp → Bool
  | .add | .subtract | .multiply | .divide | .quotient | .remainder => true
  | _ => false

/-- Only two integers and two reals have a result. -/
theorem BinaryOp.numbers_of_apply {op : BinaryOp} (arithmetic : op.isArithmetic = true)
    {a b r : Constant} (done : op.apply a b = .ok r) :
    (∃ x y, a = .integer x ∧ b = .integer y) ∨ ∃ x y, a = .real x ∧ b = .real y := by
  cases op with
  | add | subtract | multiply | divide | quotient | remainder =>
    cases a <;> cases b <;>
      first
      | exact .inl ⟨_, _, rfl, rfl⟩
      | exact .inr ⟨_, _, rfl, rfl⟩
      | cases done
  | _ => cases arithmetic

section
variable {heap : Heap} {v w : Value} {a b : Constant} (left : Means heap v a)
  (right : Means heap w b)

include left right in
/-- An operation of arithmetic agrees with an operator if it does so on integers and on reals. -/
theorem agrees_arithmetic {op : Opcode} {integers? : Int → Int → Option Int}
    {reals? : Option (Binary64 → Binary64 → Binary64)}
    (integers : ∀ x y : Int64, Agrees heap ((integerResult op x y).map .integer)
      (Constant.ofExact op (integers? x.toInt y.toInt)))
    (reals : ∀ x y, Agrees heap ((realResult op x y).map .real)
      ((Constant.real x).arithmetic op integers? reals? (.real y))) :
    Agrees heap (Pseudocode.arithmetic op v w) (a.arithmetic op integers? reals? b) := by
  cases left with
  | integer x =>
    cases right with
    | integer y => exact integers x y
    | _ => exact .error _
  | real x =>
    cases right with
    | real y => exact reals x y
    | _ => exact .error _
  | _ => exact .error _

include left right in
/-- Every operation of arithmetic agrees with its operator. -/
theorem agrees_applyArithmetic {op : BinaryOp} (arithmetic : op.isArithmetic = true) :
    Agrees heap (Pseudocode.arithmetic (.ofBinary op) v w) (op.apply a b) := by
  cases op with
  | add | subtract | multiply =>
    rw [BinaryOp.apply]
    exact agrees_arithmetic left right (fun _ _ => agrees_checked heap _ _)
      (fun _ _ => .ok (.real _))
  | divide =>
    rw [BinaryOp.apply]
    exact agrees_arithmetic left right (agrees_division heap .divide Int.tdiv)
      (fun _ _ => .ok (.real _))
  | quotient =>
    rw [BinaryOp.apply]
    exact agrees_arithmetic left right (agrees_division heap .quotient Int.tdiv)
      (fun _ _ => .error _)
  | remainder =>
    rw [BinaryOp.apply]
    exact agrees_arithmetic left right (agrees_division heap .remainder Int.tmod)
      (fun _ _ => .error _)
  | _ => cases arithmetic

include left right in
theorem agrees_comparison (op : Opcode) :
    Agrees heap (comparison op v w) (a.compared op (meets op) b) := by
  cases left with
  | text _ => cases right <;> exact .error _
  | _ => cases right <;> first | exact .error _ | exact .ok (.boolean _)

include left in
theorem truth_eq (op : Opcode) : Pseudocode.truth op v = a.truth op := by
  cases left <;> rfl

include left in
theorem agrees_not :
    Agrees heap ((Pseudocode.truth .not v).map fun x => .boolean !x) (UnaryOp.not.apply a) := by
  cases left with
  | boolean b => exact .ok (.boolean _)
  | _ => exact .error _

include left in
theorem agrees_negation : Agrees heap (negation v) (UnaryOp.negate.apply a) := by
  cases left with
  | integer n => exact agrees_checked heap .negate (-n.toInt)
  | real x => exact .ok (.real _)
  | _ => exact .error _

end

/-! ## Faults of expressions -/

theorem isOperand_ofExact {op : Opcode} {n : Option Int} {f : RunFault}
    (h : Constant.ofExact op n = .error f) : f.isOperand = true := by
  unfold Constant.ofExact at h
  split at h
  · cases h; rfl
  · split at h <;> cases h
    rfl

theorem isOperand_arithmetic {op : Opcode} {integers? : Int → Int → Option Int}
    {reals? : Option (Binary64 → Binary64 → Binary64)} {a b : Constant} {f : RunFault}
    (h : a.arithmetic op integers? reals? b = .error f) : f.isOperand = true := by
  unfold Constant.arithmetic at h
  split at h
  · exact isOperand_ofExact h
  · split at h <;> cases h
    rfl
  all_goals cases h; rfl

theorem isOperand_connective {op : Opcode} {a b : Constant} {g : Bool → Bool → Bool}
    {f : RunFault} (h : a.connective op g b = .error f) : f.isOperand = true := by
  cases a <;> cases b <;> cases h <;> rfl

theorem isOperand_joined {a b : Constant} {f : RunFault} (h : a.joined b = .error f) :
    f.isOperand = true := by
  cases a <;> cases b <;> cases h <;> rfl

theorem isOperand_compared {op : Opcode} {meets : Ordering → Bool} {a b : Constant}
    {f : RunFault} (h : a.compared op meets b = .error f) : f.isOperand = true := by
  cases a <;> cases b <;> cases h <;> rfl

theorem isOperand_applyUnary {op : UnaryOp} {a : Constant} {f : RunFault}
    (h : op.apply a = .error f) : f.isOperand = true := by
  unfold UnaryOp.apply at h
  split at h
  · cases h
  · cases h; rfl
  · exact isOperand_ofExact h
  · cases h
  · cases h; rfl

theorem isOperand_applyBinary {op : BinaryOp} {a b : Constant} {f : RunFault}
    (h : op.apply a b = .error f) : f.isOperand = true := by
  cases op with
  | add | subtract | multiply | divide | quotient | remainder =>
    rw [BinaryOp.apply] at h
    exact isOperand_arithmetic h
  | and | or => exact isOperand_connective h
  | concat => exact isOperand_joined h
  | equal | notEqual => cases h
  | greater | greaterEqual | less | lessEqual => exact isOperand_compared h

/-- The error of an operator at a line has the operator's fault. -/
theorem fault_of_mapError {α : Type} {r : Except RunFault α} {line : UInt32} {e : RunError}
    (h : r.mapError (fun f => (⟨f, some line⟩ : RunError)) = .error e) : r = .error e.fault := by
  cases r with
  | ok x => cases h
  | error f => cases h; rfl

/-- What goes wrong in an expression comes from the operands of an operator. -/
theorem isOperand_of_eval {source : String} {e : Expr} {err : RunError}
    (h : e.eval source = .error err) : err.fault.isOperand = true := by
  induction e with
  | literal line value => cases h
  | group line x ih => exact ih h
  | unary line op x ih =>
    rw [Expr.eval] at h
    cases value : x.eval source with
    | error e' => rw [value] at h; cases h; exact ih value
    | ok a => rw [value] at h; exact isOperand_applyUnary (fault_of_mapError h)
  | binary line op l r ihl ihr =>
    rw [Expr.eval] at h
    cases left : l.eval source with
    | error e' => rw [left] at h; cases h; exact ihl left
    | ok a =>
      cases right : r.eval source with
      | error e' => rw [left, right] at h; cases h; exact ihr right
      | ok b => rw [left, right] at h; exact isOperand_applyBinary (fault_of_mapError h)

end Pseudocode
