import Pseudocode.Number.Binary64
/-!
# Expressions

The syntax tree of an expression. Every node has a line: that of its literal, its operator or its
opening parenthesis. A string literal is kept as a range of the source, quotes included.
-/
namespace Pseudocode

inductive UnaryOp where
  | not | negate
  deriving DecidableEq, Repr

/-- The sign of the operator in a printed expression (`UnaryOp::symbol`). -/
def UnaryOp.text : UnaryOp → String
  | .not => "NOT"
  | .negate => "-"

inductive BinaryOp where
  | add | subtract | multiply | divide | quotient | remainder | and | or | concat | equal | notEqual
  | greater | greaterEqual | less | lessEqual
  deriving DecidableEq, Repr

namespace BinaryOp

/-- The sign of the operator in a printed expression (`BinaryOp::symbol`). -/
def text : BinaryOp → String
  | add => "+"
  | subtract => "-"
  | multiply => "*"
  | divide => "/"
  | quotient => "DIV"
  | remainder => "MOD"
  | and => "AND"
  | or => "OR"
  | concat => "&"
  | equal => "="
  | notEqual => "<>"
  | greater => ">"
  | greaterEqual => ">="
  | less => "<"
  | lessEqual => "<="

/-- How tightly the operator binds, from one for `OR` to six for products (`Precedence`). -/
def strength : BinaryOp → Nat
  | or => 1
  | and => 2
  | equal | notEqual => 3
  | greater | greaterEqual | less | lessEqual => 4
  | add | subtract | concat => 5
  | multiply | divide | quotient | remainder => 6

end BinaryOp

inductive Literal where
  | boolean (b : Bool)
  | character (c : UInt8)
  | real (x : Binary64)
  | integer (n : Int64)
  /-- The bytes of the source that hold the string and its quotes. -/
  | string (start length : Nat)
  deriving DecidableEq, Repr

inductive Expr where
  | literal (line : UInt32) (value : Literal)
  | unary (line : UInt32) (op : UnaryOp) (operand : Expr)
  | group (line : UInt32) (inner : Expr)
  | binary (line : UInt32) (op : BinaryOp) (left right : Expr)
  deriving DecidableEq, Repr

namespace Expr

/-- The line of the expression's own node. -/
def line : Expr → UInt32
  | literal line _ => line
  | unary line _ _ => line
  | group line _ => line
  | binary line _ _ _ => line

/-- Number of nodes on the longest way from the root to a literal (`Parser::height`). -/
def height : Expr → Nat
  | literal _ _ => 1
  | unary _ _ e => e.height + 1
  | group _ e => e.height + 1
  | binary _ _ l r => max l.height r.height + 1

/-- The expression and all its parts, each before its own parts, left before right. -/
def parts : Expr → List Expr
  | e@(literal _ _) => [e]
  | e@(unary _ _ x) => e :: x.parts
  | e@(group _ x) => e :: x.parts
  | e@(binary _ _ l r) => e :: (l.parts ++ r.parts)

end Expr

end Pseudocode
