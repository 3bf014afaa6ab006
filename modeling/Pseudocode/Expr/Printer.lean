import Pseudocode.Expr.Basic
import Pseudocode.Number.RealText
import Pseudocode.Text.Bytes
/-!
# Expressions as text

An expression is written with parentheses around every operator and around every group of the
source. Strings are written as they stand in the source.
-/
namespace Pseudocode

/-- A truth value as the language writes it. -/
def truthText (b : Bool) : String := if b then "TRUE" else "FALSE"

/-- A character between single quotes; a byte stands for the code point of that number. -/
def characterText (c : UInt8) : String := String.ofList ['\'', Char.ofNat c.toNat, '\'']

def integerText (n : Int64) : String := String.ofList (Decimal.ofInt n.toInt)

/-- A literal as text; `none` if it is a string outside the source. -/
def Literal.render (source : String) : Literal → Option String
  | .boolean b => some (truthText b)
  | .character c => some (characterText c)
  | .real x => some x.sixPlaces
  | .integer n => some (integerText n)
  | .string start length => Text.slice? source start length

/-- An expression as text; `none` if it holds a string outside the source (`fmt_node`). -/
def Expr.render (source : String) : Expr → Option String
  | .literal _ value => value.render source
  | .unary _ op x => do
    let x ← x.render source
    return "(" ++ op.text ++ " " ++ x ++ ")"
  | .group _ x => do
    let x ← x.render source
    return "(" ++ x ++ ")"
  | .binary _ op l r => do
    let l ← l.render source
    let r ← r.render source
    return "(" ++ l ++ " " ++ op.text ++ " " ++ r ++ ")"

end Pseudocode
