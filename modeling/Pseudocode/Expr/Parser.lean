import Pseudocode.Expr.Arena
import Pseudocode.Number.RealText
import Pseudocode.Token.Scanner
/-!
# From tokens to an expression

A precedence climber with one token of lookahead. Line ends are skipped, so an expression may span
lines, and the first problem ends the parse. A token that is a fault is reported when it becomes the
lookahead, before the token in front of it is looked at.

Two limits keep expressions small: the nesting of operand positions and the height of the tree.
-/
namespace Pseudocode

/-- How large an expression may be (`ParserConfig`). The program counts nesting in a word of the
machine and height in 32 bits. The numbers here have no bound, which is the same as long as no tree
is 2^32 nodes high: for that a source has more than 2^32 bytes. -/
structure ParseLimits where
  /-- How many operand positions may be open at once. -/
  nesting : Nat
  /-- How many nodes there may be on a way from the root to a literal, less than 2^32. -/
  height : Nat
  deriving DecidableEq, Repr

/-- The usual limits (`ParserConfig::default`). -/
def ParseLimits.standard : ParseLimits := ⟨256, 1024⟩

/-! ## Errors -/

/-- What the parser may have against a token. -/
inductive Complaint where
  | expectedExpression
  | expectedEnd
  | unclosedParenthesis
  | integerOutOfRange
  | nestedTooDeeply
  | tooComplex
  deriving DecidableEq, Repr

def Complaint.message : Complaint → String
  | .expectedExpression => "expected expression"
  | .expectedEnd => "expected end of input"
  | .unclosedParenthesis => "expected ')' after expression"
  | .integerOutOfRange => "integer literal out of range"
  | .nestedTooDeeply => "expression nested too deeply"
  | .tooComplex => "expression too complex"

/-- Why a source is no expression. -/
inductive ParseError where
  /-- A piece of the source is no token. -/
  | lexical (fault : Fault) (line : UInt32)
  /-- A token is not accepted where it stands. -/
  | atToken (complaint : Complaint) (line : UInt32) (lexeme : String)
  /-- The end of the source is not accepted where it stands. -/
  | atEnd (complaint : Complaint) (line : UInt32)
  deriving DecidableEq, Repr

namespace ParseError

def line : ParseError → UInt32
  | lexical _ line => line
  | atToken _ line _ => line
  | atEnd _ line => line

/-- The text of the offending token, if the wording does not already describe the place. -/
def lexeme : ParseError → String
  | atToken _ _ lexeme => lexeme
  | lexical _ _ | atEnd _ _ => ""

def text : ParseError → String
  | lexical fault _ => fault.message
  | atToken complaint _ _ => complaint.message
  | atEnd complaint _ => complaint.message ++ " at end"

def message (e : ParseError) : String :=
  "line " ++ toString e.line ++ ": " ++ e.text ++
    (if e.lexeme.isEmpty then "" else " at '" ++ e.lexeme ++ "'")

end ParseError

/-- The error of a complaint about a token (`error_at`). -/
def Complaint.about (c : Complaint) (t : Token) : ParseError :=
  match t.kind with
  | .endOfSource => .atEnd c t.line
  | _ => .atToken c t.line t.lexeme

/-! ## What tokens mean to the parser -/

/-- The operator that a token is between two operands (`binary_op`). -/
def BinaryOp.ofKind? : Kind → Option BinaryOp
  | .symbol .plus => some .add
  | .symbol .minus => some .subtract
  | .symbol .star => some .multiply
  | .symbol .slash => some .divide
  | .keyword .DIV => some .quotient
  | .keyword .MOD => some .remainder
  | .keyword .AND => some .and
  | .keyword .OR => some .or
  | .symbol .ampersand => some .concat
  | .symbol .equal => some .equal
  | .symbol .notEqual => some .notEqual
  | .symbol .greater => some .greater
  | .symbol .greaterEqual => some .greaterEqual
  | .symbol .less => some .less
  | .symbol .lessEqual => some .lessEqual
  | _ => none

/-- The operator that a token is in front of an operand. -/
def UnaryOp.ofKind? : Kind → Option UnaryOp
  | .symbol .minus => some .negate
  | .keyword .NOT => some .not
  | _ => none

def maxInteger : Nat := 9223372036854775807

/-- The literal that a token stands for (`Parser::literal`). -/
def Literal.ofToken (t : Token) : Except ParseError Literal :=
  match t.kind with
  | .keyword .TRUE => .ok (.boolean true)
  | .keyword .FALSE => .ok (.boolean false)
  | .integer =>
    let n := Decimal.value t.lexeme.toList
    if n ≤ maxInteger then .ok (.integer (Int64.ofNat n))
    else .error (Complaint.integerOutOfRange.about t)
  | .real =>
    let digits := t.lexeme.toList
    .ok (.real (.ofDecimal (digits.takeWhile Char.isDigit)
      ((digits.dropWhile Char.isDigit).drop 1)))
  | .character => .ok (.character (UInt8.ofNat (t.lexeme.toList.getD 1 ' ').toNat))
  | .string => .ok (.string t.start t.size)
  | _ => .error (Complaint.expectedExpression.about t)

/-! ## The token stream -/

/-- The token in sight and those behind it. -/
structure TokenStream where
  current : Token
  rest : List Token
  deriving DecidableEq, Repr

namespace TokenStream

/-- Moves on by one token, which must not be a fault (`Parser::advance`). Behind the end there is
the end. -/
def advance (s : TokenStream) : Except ParseError TokenStream :=
  match s.rest with
  | [] => .ok s
  | t :: ts =>
    match t.kind with
    | .fault f => .error (.lexical f t.line)
    | _ => .ok ⟨t, ts⟩

/-- Moves on if the token in sight is of the given kind (`Parser::consume`). -/
def expect (s : TokenStream) (kind : Kind) (complaint : Complaint) :
    Except ParseError TokenStream :=
  if s.current.kind = kind then s.advance else .error (complaint.about s.current)

/-- The tokens of a source without its line ends, with nothing in sight yet. -/
def ofSource (source : String) : TokenStream :=
  ⟨⟨.endOfSource, "", 0, 1⟩, (tokenize source).filter fun t => t.kind != .endOfLine⟩

end TokenStream

/-! ## The climber -/

/-- An operand read so far: its root in storage, the expression below and its height. -/
structure Operand where
  id : NodeId
  expr : Expr
  height : Nat
  deriving DecidableEq, Repr

structure ParseState where
  stream : TokenStream
  arena : Arena
  deriving DecidableEq, Repr

abbrev ParseResult := Except ParseError (Operand × ParseState)

namespace ParseState

/-- Stores a node for the token, unless the tree below it is too tall (`Parser::node`). -/
def store (s : ParseState) (limits : ParseLimits) (t : Token) (payload : Payload) (expr : Expr)
    (height : Nat) : ParseResult :=
  if limits.height < height then .error (Complaint.tooComplex.about t)
  else
    let (id, arena) := s.arena.alloc ⟨t.line, payload⟩
    .ok (⟨id, expr, height⟩, { s with arena })

def advance (s : ParseState) : Except ParseError ParseState := do
  let stream ← s.stream.advance
  return { s with stream }

/-- Moves on if the token in sight is of the given kind. -/
def expect (s : ParseState) (kind : Kind) (complaint : Complaint) :
    Except ParseError ParseState := do
  let stream ← s.stream.expect kind complaint
  return { s with stream }

end ParseState

/-- A reader of operands whose operators bind at least as tightly as the given strength. -/
abbrev OperandReader := Nat → ParseState → ParseResult

/-- The operand that starts with token `t`, already passed: a group, a unary operator or a literal
(`parse_operand`). -/
def readPrimary (limits : ParseLimits) (operand : OperandReader) (t : Token) (s : ParseState) :
    ParseResult :=
  if t.kind = .symbol .leftParen then do
    let (inner, s) ← operand 1 s
    let s ← s.expect (.symbol .rightParen) .unclosedParenthesis
    s.store limits t (.group inner.id) (.group t.line inner.expr) (inner.height + 1)
  else
    match UnaryOp.ofKind? t.kind with
    | some op => do
      let (x, s) ← operand 7 s
      s.store limits t (.unary op x.id) (.unary t.line op x.expr) (x.height + 1)
    | none => do
      let value ← Literal.ofToken t
      s.store limits t (.literal value) (.literal t.line value) 1

/-- Joins operators of at least the given strength and their right operands to the operand on the
left (`Parser::binary`). Each turn passes a token, so the number of tokens left bounds the turns. -/
def climb (limits : ParseLimits) (operand : OperandReader) (strength : Nat) :
    Nat → Operand → ParseState → ParseResult
  | 0, left, s => .ok (left, s)
  | turns + 1, left, s =>
    let t := s.stream.current
    match BinaryOp.ofKind? t.kind with
    | none => .ok (left, s)
    | some op =>
      if op.strength < strength then .ok (left, s)
      else do
        let s ← s.advance
        let (right, s) ← operand (op.strength + 1) s
        let (left, s) ← s.store limits t (.binary op left.id right.id)
          (.binary t.line op left.expr right.expr) (max left.height right.height + 1)
        climb limits operand strength turns left s

/-- An operand whose operators bind at least as tightly as the given strength (`parse_precedence`).
The first argument is how many operand positions may still be opened. -/
def readOperand (limits : ParseLimits) : Nat → OperandReader
  | 0, _, s => .error (Complaint.nestedTooDeeply.about s.stream.current)
  | nesting + 1, strength, s => do
    let t := s.stream.current
    let s ← s.advance
    let (left, s) ← readPrimary limits (readOperand limits nesting) t s
    climb limits (readOperand limits nesting) strength s.stream.rest.length left s

/-- The expression that a source holds, its nodes added to the given storage (`Parser::parse`). -/
def parse (limits : ParseLimits) (arena : Arena) (source : String) : Except ParseError Ast := do
  let s ← ParseState.advance ⟨.ofSource source, arena⟩
  let (root, s) ← readOperand limits limits.nesting 1 s
  let s ← s.expect .endOfSource .expectedEnd
  return ⟨source, s.arena, root.id, root.expr⟩

end Pseudocode
