import Pseudocode.Bytecode.Opcode
import Pseudocode.Value
/-!
# Run-time errors

A run ends early by a fault of the instruction at hand. The error that is reported is the fault with
the line of that instruction, where the chunk has one.
-/
namespace Pseudocode

/-- What operands an operation takes. -/
inductive Expectation where
  | aNumber | numbers | integers | booleans | strings | ordered
  deriving DecidableEq, Repr

def Expectation.text : Expectation → String
  | .aNumber => "a number"
  | .numbers => "numbers"
  | .integers => "integers"
  | .booleans => "booleans"
  | .strings => "strings"
  | .ordered => "booleans, characters or numbers"

/-- How an error names an operation: by its operator, where it has one (`symbol`). -/
def Opcode.symbol : Opcode → String
  | add => "+"
  | subtract => "-"
  | multiply => "*"
  | divide => "/"
  | quotient => "DIV"
  | remainder => "MOD"
  | and => "AND"
  | or => "OR"
  | not => "NOT"
  | negate => "negate"
  | concat => "&"
  | equal => "="
  | notEqual => "<>"
  | less => "<"
  | lessEqual => "<="
  | greater => ">"
  | greaterEqual => ">="
  | op => op.name

/-- Why an instruction fails. -/
inductive RunFault where
  | endOfCode
  /-- The run has taken as many steps as it may. -/
  | stepLimit (limit : Nat)
  | unknownOpcode (byte : UInt8)
  | truncated (op : Opcode)
  | constantIndex (index : Nat)
  | stackUnderflow
  /-- The stack holds as many values as it may. -/
  | stackLimit (limit : Nat)
  /-- An operand is of a type that the operation does not take. -/
  | operandType (op : Opcode) (expected : Expectation) (found : ValueType)
  /-- The operands are not of one type. -/
  | mixedTypes (op : Opcode) (left right : ValueType)
  | divisionByZero
  /-- The result is no integer of 64 bits. -/
  | overflow (op : Opcode)
  | danglingString
  deriving DecidableEq, Repr

def RunFault.message : RunFault → String
  | endOfCode => "reached end of code without OP_RETURN"
  | stepLimit limit => "execution step limit exceeded (" ++ toString limit ++ ")"
  | unknownOpcode byte => "unknown opcode " ++ toString byte
  | truncated op => "truncated operand for " ++ op.name
  | constantIndex index => "constant index " ++ toString index ++ " out of range"
  | stackUnderflow => "stack underflow"
  | stackLimit limit => "stack size limit exceeded (" ++ toString limit ++ ")"
  | operandType op expected found =>
    "type error: " ++ op.symbol ++ " expects " ++ expected.text ++ ", got " ++ found.name
  | mixedTypes op left right =>
    "type error: " ++ op.symbol ++ " operands must have the same type, got " ++ left.name ++
      " and " ++ right.name
  | divisionByZero => "division by zero"
  | overflow op => "integer overflow in " ++ op.symbol
  | danglingString => "string operand is not in the heap"

/-- A fault with the line of its instruction, if that is known. -/
structure RunError where
  fault : RunFault
  line : Option UInt32
  deriving DecidableEq, Repr

/-- The wording of an error: the line first. -/
def RunError.message (e : RunError) : String :=
  (match e.line with
    | some line => "line " ++ toString line ++ ": "
    | none => "") ++ e.fault.message

end Pseudocode
