import Pseudocode.Expr.Printer
import Pseudocode.Heap.Basic
/-!
# Values

What an expression evaluates to. Strings are handles into the heap, so equality of values and their
text depend on a heap. Two values are equal if they are of one type and alike: reals by bit pattern,
so the two zeros differ and what is not a number equals itself, and strings by text.
-/
namespace Pseudocode

inductive ValueType where
  | boolean | character | real | integer | string
  deriving DecidableEq, Repr

/-- The name of the type in an error (`Value::type_name`). -/
def ValueType.name : ValueType → String
  | .boolean => "boolean"
  | .character => "char"
  | .real => "real"
  | .integer => "integer"
  | .string => "string"

inductive Value where
  | boolean (b : Bool)
  | character (c : UInt8)
  | real (x : Binary64)
  | integer (n : Int64)
  | string (r : Handle)
  deriving DecidableEq, Repr

namespace Value

def type : Value → ValueType
  | boolean _ => .boolean
  | character _ => .character
  | real _ => .real
  | integer _ => .integer
  | string _ => .string

/-- Is the value an integer or a real (`Value::is_number`)? -/
def isNumber : Value → Bool
  | real _ | integer _ => true
  | _ => false

/-- Are the values equal (`Value::is_equal`)? Strings with different handles are compared by text,
and a string that is not on the heap equals only itself. -/
def isEqual (heap : Heap) : Value → Value → Bool
  | boolean a, boolean b => a == b
  | character a, character b => a == b
  | real a, real b => a == b
  | integer a, integer b => a == b
  | string a, string b =>
    a == b || match heap.text? a, heap.text? b with
      | some x, some y => x == y
      | _, _ => false
  | _, _ => false

/-- The text of a handle that is not on the heap. -/
def danglingText (r : Handle) : String := "<dangling #" ++ toString r.index ++ ">"

/-- The value as text, strings shown by `quoted`. -/
def textWith (heap : Heap) (quoted : StringObject → String) : Value → String
  | boolean b => truthText b
  | character c => characterText c
  | real x => x.shown
  | integer n => integerText n
  | string r => ((heap.get? r).map quoted).getD (danglingText r)

/-- The value as a result is shown: strings between double quotes (`Value::display`). -/
def shown (heap : Heap) : Value → String := textWith heap fun s => "\"" ++ s.text ++ "\""

/-- The value as a listing shows it: a string that is a range of a source has a mark in front
(`format_value`). -/
def listed (heap : Heap) : Value → String :=
  textWith heap fun s => (if s.owned then "\"" else "&\"") ++ s.text ++ "\""

end Value

end Pseudocode
