import Pseudocode.Machine.Fault
/-!
# What operations compute

The results of operations on values. Operands are of one type, both integers or both reals, and
nothing is converted. Integer results are exact or an overflow. Both operands of `AND` and `OR` are
evaluated; two values of any types may be compared for equality.

* `checked_eq_ok_iff`: an exact result is accepted just if it fits.
-/
namespace Pseudocode

def minInt : Int := -9223372036854775808

def maxInt : Int := 9223372036854775807

/-- An exact result as an integer of 64 bits. -/
def checked (op : Opcode) (n : Int) : Except RunFault Int64 :=
  if minInt ≤ n ∧ n ≤ maxInt then .ok (Int64.ofInt n) else .error (.overflow op)

/-- Arithmetic on integers (`integer_arithmetic`). Division drops the fraction, and a remainder has
the sign of the dividend. -/
def integerResult (op : Opcode) (x y : Int64) : Except RunFault Int64 :=
  match op with
  | .add => checked op (x.toInt + y.toInt)
  | .subtract => checked op (x.toInt - y.toInt)
  | .multiply => checked op (x.toInt * y.toInt)
  | .divide | .quotient =>
    if y = 0 then .error .divisionByZero else checked op (x.toInt.tdiv y.toInt)
  | _ => if y = 0 then .error .divisionByZero else checked op (x.toInt.tmod y.toInt)

/-- Arithmetic on reals, which have no whole division (`real_arithmetic`). -/
def realResult (op : Opcode) (x y : Binary64) : Except RunFault Binary64 :=
  match op with
  | .add => .ok (x.add y)
  | .subtract => .ok (x.sub y)
  | .multiply => .ok (x.mul y)
  | .divide => .ok (x.div y)
  | _ => .error (.operandType op .integers .real)

/-- Arithmetic on two values (`Vm::arithmetic`). If only one is a number the other is reported, else
the left one. -/
def arithmetic (op : Opcode) (a b : Value) : Except RunFault Value :=
  match a, b with
  | .integer x, .integer y => (integerResult op x y).map .integer
  | .real x, .real y => (realResult op x y).map .real
  | a, b =>
    if a.isNumber && b.isNumber then .error (.mixedTypes op a.type b.type)
    else .error (.operandType op .numbers (if a.isNumber then b.type else a.type))

/-- The value of opposite sign. -/
def negation (a : Value) : Except RunFault Value :=
  match a with
  | .integer n => (checked .negate (-n.toInt)).map .integer
  | .real x => .ok (.real x.neg)
  | a => .error (.operandType .negate .aNumber a.type)

/-- The truth value of an operand (`pop_bool`). -/
def truth (op : Opcode) (a : Value) : Except RunFault Bool :=
  match a with
  | .boolean b => .ok b
  | a => .error (.operandType op .booleans a.type)

/-- The handles of two string operands. If only one is a string the other is reported, else the left
one. -/
def handles (a b : Value) : Except RunFault (Handle × Handle) :=
  match a, b with
  | .string x, .string y => .ok (x, y)
  | .string _, b => .error (.operandType .concat .strings b.type)
  | a, _ => .error (.operandType .concat .strings a.type)

/-- Two strings joined, with the heap that holds the result. -/
def concatenation (heap : Heap) (a b : Value) : Except RunFault (Value × Heap) := do
  let (x, y) ← handles a b
  match heap.concat? x y with
  | some (r, heap) => return (.string r, heap)
  | none => throw .danglingString

/-- How two values of one type compare; `none` if they are reals and one is not a number. -/
def ordering (op : Opcode) (a b : Value) : Except RunFault (Option Ordering) :=
  match a, b with
  | .boolean x, .boolean y => .ok (some (compare x.toNat y.toNat))
  | .character x, .character y => .ok (some (compare x.toNat y.toNat))
  | .integer x, .integer y => .ok (some (compare x.toInt y.toInt))
  | .real x, .real y => .ok (x.compare? y)
  | .string _, .string _ => .error (.operandType op .ordered .string)
  | a, b => .error (.mixedTypes op a.type b.type)

/-- Does the order of two values meet the comparison? -/
def meets (op : Opcode) (o : Ordering) : Bool :=
  match op with
  | .less => o.isLT
  | .lessEqual => o.isLE
  | .greater => o.isGT
  | _ => o.isGE

/-- A comparison by order (`compare`). What does not compare meets none. -/
def comparison (op : Opcode) (a b : Value) : Except RunFault Value := do
  let o ← ordering op a b
  return .boolean ((o.map (meets op)).getD false)

/-- An exact result is accepted just if it fits. -/
theorem checked_eq_ok_iff (op : Opcode) (n : Int) (k : Int64) :
    checked op n = .ok k ↔ (minInt ≤ n ∧ n ≤ maxInt) ∧ Int64.ofInt n = k := by
  unfold checked
  split <;> rename_i h <;> simp [h]

end Pseudocode
