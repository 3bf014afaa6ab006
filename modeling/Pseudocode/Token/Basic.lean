import Pseudocode.Token.Keyword
/-!
# Tokens

A token is a lexeme of the source with its kind, the byte at which it starts and its line. What
the scanner cannot read is a token too, whose kind carries the fault.
-/
namespace Pseudocode

inductive Symbol where
  | plus | minus | star | slash | ampersand | caret | colon | comma | leftParen | rightParen
  | leftBracket | rightBracket | dot | equal | notEqual | less | lessEqual | greater | greaterEqual
  | assign
  deriving DecidableEq, Repr

namespace Symbol

def text : Symbol → String
  | .plus => "+"
  | .minus => "-"
  | .star => "*"
  | .slash => "/"
  | .ampersand => "&"
  | .caret => "^"
  | .colon => ":"
  | .comma => ","
  | .leftParen => "("
  | .rightParen => ")"
  | .leftBracket => "["
  | .rightBracket => "]"
  | .dot => "."
  | .equal => "="
  | .notEqual => "<>"
  | .less => "<"
  | .lessEqual => "<="
  | .greater => ">"
  | .greaterEqual => ">="
  | .assign => "<-"

def label : Symbol → String
  | .plus => "Plus"
  | .minus => "Minus"
  | .star => "Star"
  | .slash => "Slash"
  | .ampersand => "Ampersand"
  | .caret => "Caret"
  | .colon => "Colon"
  | .comma => "Comma"
  | .leftParen => "LParen"
  | .rightParen => "RParen"
  | .leftBracket => "LBracket"
  | .rightBracket => "RBracket"
  | .dot => "Dot"
  | .equal => "Eq"
  | .notEqual => "NotEq"
  | .less => "Lt"
  | .lessEqual => "LtEq"
  | .greater => "Gt"
  | .greaterEqual => "GtEq"
  | .assign => "Assign"

def isComparison : Symbol → Bool
  | .equal | .notEqual | .less | .lessEqual | .greater | .greaterEqual => true
  | _ => false

end Symbol

inductive Fault where
  | unterminatedString
  | unterminatedCharacter
  | emptyCharacter
  /-- More than one byte stands between the quotes of a character literal. -/
  | longCharacter
  | unexpectedCharacter
  deriving DecidableEq, Repr

def Fault.message : Fault → String
  | .unterminatedString => "unterminated string"
  | .unterminatedCharacter => "unterminated character literal"
  | .emptyCharacter => "empty character literal"
  | .longCharacter => "multi-character character literal"
  | .unexpectedCharacter => "unexpected character"

inductive Kind where
  | character
  | integer
  | real
  | string
  | symbol (s : Symbol)
  | keyword (k : Keyword)
  /-- A word that is not reserved. -/
  | identifier
  | endOfLine
  | endOfSource
  /-- A piece of the source that is no token. -/
  | fault (f : Fault)
  deriving DecidableEq, Repr

namespace Kind

/-- The kind of a word: reserved, or an identifier (`TokenKind::keyword`). -/
def ofWord (word : String) : Kind :=
  match Keyword.ofText? word with
  | some k => keyword k
  | none => identifier

/-- The name of the kind in a listing of kinds. -/
def label : Kind → String
  | character => "Char"
  | integer => "Integer"
  | real => "Real"
  | string => "String"
  | symbol s => s.label
  | keyword k => k.label
  | identifier => "Ident"
  | endOfLine => "Eol"
  | endOfSource => "Eof"
  | fault _ => "Error"

/-- Is the kind that of a piece that is no token (`Token::is_error`)? -/
def isFault : Kind → Bool
  | fault _ => true
  | _ => false

/-- Is the kind a reserved word (`TokenKind::is_keyword`)? The truth values are. -/
def isKeyword : Kind → Bool
  | keyword _ => true
  | _ => false

/-- Is the kind a literal (`TokenKind::is_literal`)? The truth values are. -/
def isLiteral : Kind → Bool
  | character | integer | real | string | keyword .TRUE | keyword .FALSE => true
  | _ => false

/-- Is the kind an operator or punctuation mark (`TokenKind::is_operator`)? `AND`, `DIV` and their
like are reserved words. -/
def isSymbol : Kind → Bool
  | symbol _ => true
  | _ => false

end Kind

structure Token where
  kind : Kind
  /-- The text of the lexeme; for a fault, its wording. -/
  lexeme : String
  /-- The byte of the source at which the lexeme starts. -/
  start : Nat
  /-- The line on which the lexeme starts; for a fault, the line on which it ends. -/
  line : UInt32
  deriving DecidableEq, Repr

namespace Token

/-- Number of bytes of the lexeme (`Token::len`). -/
def size (t : Token) : Nat := t.lexeme.utf8ByteSize

/-- How a listing shows the token: the two ends have a sign of their own (`Token::fmt`). -/
def shown (t : Token) : String :=
  match t.kind with
  | .endOfLine => "<EOL>"
  | .endOfSource => "<EOF>"
  | _ => t.lexeme

end Token

end Pseudocode
