import Pseudocode.Expr.Basic
/-!
# Operation codes

An instruction is one byte that names its operation, followed by the bytes of its operand. Only the
two constant loads have one: the index of a constant, in one byte or in three.

* `ofByte?_toByte`: each operation is found under its own byte;
* `toByte_of_ofByte?`: and under no other.
-/
namespace Pseudocode

inductive Opcode where
  | constant | constantLong | pushTrue | pushFalse | add | subtract | multiply | divide | quotient
  | remainder | negate | and | or | not | concat | equal | notEqual | less | lessEqual | greater
  | greaterEqual | finish
  deriving DecidableEq, Repr

namespace Opcode

/-- The name of the operation in a listing (`OpCode::name`). -/
def name : Opcode → String
  | constant => "OP_CONSTANT"
  | constantLong => "OP_CONSTANT_LONG"
  | pushTrue => "OP_TRUE"
  | pushFalse => "OP_FALSE"
  | add => "OP_ADD"
  | subtract => "OP_SUB"
  | multiply => "OP_MUL"
  | divide => "OP_DIV"
  | quotient => "OP_INT_DIV"
  | remainder => "OP_MOD"
  | negate => "OP_NEGATE"
  | and => "OP_AND"
  | or => "OP_OR"
  | not => "OP_NOT"
  | concat => "OP_CONCAT"
  | equal => "OP_EQUAL"
  | notEqual => "OP_NOT_EQUAL"
  | less => "OP_LESS"
  | lessEqual => "OP_LESS_EQUAL"
  | greater => "OP_GREATER"
  | greaterEqual => "OP_GREATER_EQUAL"
  | finish => "OP_RETURN"

/-- Number of operand bytes behind the operation's byte (`operand_len`). -/
def operandSize : Opcode → Nat
  | constant => 1
  | constantLong => 3
  | _ => 0

/-- All operations, in the order of their bytes. -/
def all : List Opcode :=
  [constant, constantLong, pushTrue, pushFalse, add, subtract, multiply, divide, quotient,
    remainder, negate, and, or, not, concat, equal, notEqual, less, lessEqual, greater,
    greaterEqual, finish]

/-- The byte of the operation. -/
def toByte : Opcode → UInt8
  | constant => 0
  | constantLong => 1
  | pushTrue => 2
  | pushFalse => 3
  | add => 4
  | subtract => 5
  | multiply => 6
  | divide => 7
  | quotient => 8
  | remainder => 9
  | negate => 10
  | and => 11
  | or => 12
  | not => 13
  | concat => 14
  | equal => 15
  | notEqual => 16
  | less => 17
  | lessEqual => 18
  | greater => 19
  | greaterEqual => 20
  | finish => 21

/-- The operation of a byte (`OpCode::try_from`). -/
def ofByte? (b : UInt8) : Option Opcode := all[b.toNat]?

/-- The operator of an expression as an operation (`unary_opcode`). -/
def ofUnary : UnaryOp → Opcode
  | .not => not
  | .negate => negate

/-- The operator of an expression as an operation (`binary_opcode`). -/
def ofBinary : BinaryOp → Opcode
  | .add => add
  | .subtract => subtract
  | .multiply => multiply
  | .divide => divide
  | .quotient => quotient
  | .remainder => remainder
  | .and => and
  | .or => or
  | .concat => concat
  | .equal => equal
  | .notEqual => notEqual
  | .greater => greater
  | .greaterEqual => greaterEqual
  | .less => less
  | .lessEqual => lessEqual

theorem ofByte?_toByte (op : Opcode) : ofByte? op.toByte = some op := by
  cases op <;> rfl

/-- An operation is found under no other byte. -/
theorem toByte_of_ofByte? {b : UInt8} {op : Opcode} (h : ofByte? b = some op) : op.toByte = b := by
  have all : ∀ n < 22, (Opcode.all[n]?).map toByte = some (UInt8.ofNat n) := by decide
  have small : b.toNat < 22 := (List.getElem?_eq_some_iff.1 h).1
  have found := all b.toNat small
  rw [show Opcode.all[b.toNat]? = some op from h] at found
  simpa using found

end Opcode

end Pseudocode
