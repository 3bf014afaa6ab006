import Pseudocode.Text.Column
import Pseudocode.Token.Basic
/-!
# The token listing

One row per token: its line, or a bar where the row above has the same line, the class of its kind
and its lexeme. A row may be coloured by class for a terminal.
-/
namespace Pseudocode.TokenListing

/-- How a listing is written. -/
structure Style where
  /-- Are rows coloured with terminal escape sequences? -/
  coloured : Bool
  /-- Are kinds named one by one, and not by class? -/
  detailed : Bool
  deriving DecidableEq, Repr

/-- The class of a kind, as a listing names it (`TokenDumper::kind`). -/
def className : Kind → String
  | .endOfLine => "EOL"
  | .endOfSource => "EOF"
  | .fault _ => "ERROR"
  | .identifier => "IDENT"
  | .keyword .TRUE | .keyword .FALSE => "BOOL"
  | .character => "CHAR"
  | .integer => "INT"
  | .real => "REAL"
  | .string => "STRING"
  | .symbol s => if s.isComparison then "CMP" else "OP"
  | .keyword _ => "KEYWORD"

/-- The escape sequence that sets a colour. -/
def escape (code : String) : String := "\x1b[" ++ code ++ "m"

/-- The colour of a kind: faults red, text green, identifiers yellow, other literals cyan, symbols
magenta, the two ends dim; a reserved word has the colour of plain text (`TokenDumper::color`). -/
def colour : Kind → String
  | .endOfLine | .endOfSource => escape "2"
  | .fault _ => escape "31"
  | .string | .character => escape "32"
  | .identifier => escape "33"
  | .integer | .real | .keyword .TRUE | .keyword .FALSE => escape "36"
  | .symbol _ => escape "35"
  | .keyword _ => escape "0"

/-- The row of a token, given the line of the row above (`render_one`). -/
def row (style : Style) (above : Option UInt32) (t : Token) : String :=
  let line :=
    if above = some t.line then "    | " else Text.alignRight ' ' 5 (toString t.line) ++ " "
  let kind := if style.detailed then t.kind.label else className t.kind
  let cell := Text.alignLeft 8 kind ++ " " ++ t.shown
  line ++ (if style.coloured then colour t.kind ++ cell ++ escape "0" else cell) ++ "\n"

/-- The rows of the tokens, given the line of the row above them. -/
def rows (style : Style) : Option UInt32 → List Token → List String
  | _, [] => []
  | above, t :: ts => row style above t :: rows style (some t.line) ts

/-- The listing of tokens (`TokenDumper::render`). -/
def render (style : Style) (tokens : List Token) : String :=
  String.join (rows style none tokens)

end Pseudocode.TokenListing
