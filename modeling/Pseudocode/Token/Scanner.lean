import Pseudocode.Text.Bytes
import Pseudocode.Token.Basic
/-!
# From text to tokens

The scanner reads one lexeme at a time. A NUL character ends the source, so the scanner only ever
sees the characters before the first one. What it cannot read becomes a token whose kind is a fault,
and the scan goes on behind it.

* `splitBlank_append`: what is skipped and what is left are together what there was;
* `Lexeme.read_append`: the text of a lexeme and what is left are together what there was;
* `next_length_lt`: a token other than the end of the source takes at least one character.
-/
namespace Pseudocode

/-- A place in the source: what is still to be read, and where that begins. -/
structure Cursor where
  rest : List Char
  offset : Nat
  /-- Lines begun before this place. -/
  line : UInt32
  deriving DecidableEq, Repr

/-- A lexeme with its kind, and what follows it. -/
structure Lexeme where
  kind : Kind
  text : List Char
  rest : List Char
  deriving DecidableEq, Repr

namespace Lexeme

/-! ## Character classes: ASCII only, as all words and numbers of the language are -/

def isWordStart (c : Char) : Bool := c.isAlpha || c == '_'

def isWordPart (c : Char) : Bool := c.isAlphanum || c == '_'

/-! ## The shapes of a lexeme

Each function is given the first character, already recognised, and the characters behind it. -/

/-- A word goes on as long as letters, digits and underscores do (`read_identifier`). -/
def word (first : Char) (cs : List Char) : Lexeme :=
  let text := first :: cs.takeWhile isWordPart
  ⟨.ofWord (String.ofList text), text, cs.dropWhile isWordPart⟩

/-- A number is a run of digits (`read_number`). A point belongs to it only if a digit follows, and
then the number is real. -/
def number (first : Char) (cs : List Char) : Lexeme :=
  let whole := first :: cs.takeWhile Char.isDigit
  match cs.dropWhile Char.isDigit with
  | '.' :: d :: rest =>
    if d.isDigit then
      ⟨.real, whole ++ '.' :: d :: rest.takeWhile Char.isDigit, rest.dropWhile Char.isDigit⟩
    else ⟨.integer, whole, '.' :: d :: rest⟩
  | rest => ⟨.integer, whole, rest⟩

/-- The characters before the next `quote` and those behind it, if there is one (`read_delimited`).
-/
def untilQuote (quote : Char) (cs : List Char) : Option (List Char × List Char) :=
  match cs.dropWhile (· != quote) with
  | [] => none
  | _ :: rest => some (cs.takeWhile (· != quote), rest)

/-- A string goes up to the next double quote, over line ends too (`read_string`). -/
def string (cs : List Char) : Lexeme :=
  match untilQuote '"' cs with
  | some (body, rest) => ⟨.string, '"' :: (body ++ ['"']), rest⟩
  | none => ⟨.fault .unterminatedString, '"' :: cs, []⟩

/-- The kind of a character literal, by what stands between its quotes. -/
def characterKind : List Char → Kind
  | [] => .fault .emptyCharacter
  | [c] => if c.utf8Size = 1 then .character else .fault .longCharacter
  | _ => .fault .longCharacter

/-- A character literal goes up to the next single quote and holds one byte (`read_char`). -/
def character (cs : List Char) : Lexeme :=
  match untilQuote '\'' cs with
  | some (body, rest) => ⟨characterKind body, '\'' :: (body ++ ['\'']), rest⟩
  | none => ⟨.fault .unterminatedCharacter, '\'' :: cs, []⟩

/-- A symbol is as long as it can be. Any other character is unexpected. -/
def mark : Char → List Char → Lexeme
  | '+', cs => ⟨.symbol .plus, ['+'], cs⟩
  | '-', cs => ⟨.symbol .minus, ['-'], cs⟩
  | '*', cs => ⟨.symbol .star, ['*'], cs⟩
  | '/', cs => ⟨.symbol .slash, ['/'], cs⟩
  | '&', cs => ⟨.symbol .ampersand, ['&'], cs⟩
  | '^', cs => ⟨.symbol .caret, ['^'], cs⟩
  | ':', cs => ⟨.symbol .colon, [':'], cs⟩
  | ',', cs => ⟨.symbol .comma, [','], cs⟩
  | '(', cs => ⟨.symbol .leftParen, ['('], cs⟩
  | ')', cs => ⟨.symbol .rightParen, [')'], cs⟩
  | '[', cs => ⟨.symbol .leftBracket, ['['], cs⟩
  | ']', cs => ⟨.symbol .rightBracket, [']'], cs⟩
  | '.', cs => ⟨.symbol .dot, ['.'], cs⟩
  | '=', cs => ⟨.symbol .equal, ['='], cs⟩
  | '<', '-' :: cs => ⟨.symbol .assign, ['<', '-'], cs⟩
  | '<', '=' :: cs => ⟨.symbol .lessEqual, ['<', '='], cs⟩
  | '<', '>' :: cs => ⟨.symbol .notEqual, ['<', '>'], cs⟩
  | '<', cs => ⟨.symbol .less, ['<'], cs⟩
  | '>', '=' :: cs => ⟨.symbol .greaterEqual, ['>', '='], cs⟩
  | '>', cs => ⟨.symbol .greater, ['>'], cs⟩
  | c, cs => ⟨.fault .unexpectedCharacter, [c], cs⟩

/-- The lexeme that starts with a character, by what that is (`next_token`). -/
def read (first : Char) (cs : List Char) : Lexeme :=
  if isWordStart first then word first cs
  else if first.isDigit then number first cs
  else if first = '\n' then ⟨.endOfLine, ['\n'], cs⟩
  else if first = '"' then string cs
  else if first = '\'' then character cs
  else mark first cs

/-! ## A lexeme is a front part of the source -/

theorem word_append (c : Char) (cs : List Char) :
    (word c cs).text ++ (word c cs).rest = c :: cs := by
  simp [word]

theorem number_append (c : Char) (cs : List Char) :
    (number c cs).text ++ (number c cs).rest = c :: cs := by
  have whole : c :: cs.takeWhile Char.isDigit ++ cs.dropWhile Char.isDigit = c :: cs := by simp
  unfold number
  split
  · rename_i d rest h
    split <;> simpa [h] using whole
  · exact whole

theorem untilQuote_append {q : Char} {cs body rest : List Char}
    (h : untilQuote q cs = some (body, rest)) : body ++ q :: rest = cs := by
  unfold untilQuote at h
  split at h
  · cases h
  · rename_i x tail hx
    obtain ⟨rfl, rfl⟩ := Prod.mk.inj (Option.some.inj h)
    have head : x = q := by
      have := List.head_dropWhile_not (· != q) (l := cs) (w := by simp [hx])
      simpa [hx] using this
    conv => rhs; rw [← List.takeWhile_append_dropWhile (p := (· != q)) (l := cs), hx, head]

theorem string_append (cs : List Char) :
    (string cs).text ++ (string cs).rest = '"' :: cs := by
  unfold string
  split
  · rename_i body rest h
    simpa using untilQuote_append h
  · simp

theorem character_append (cs : List Char) :
    (character cs).text ++ (character cs).rest = '\'' :: cs := by
  unfold character
  split
  · rename_i body rest h
    simpa using untilQuote_append h
  · simp

theorem mark_append (c : Char) (cs : List Char) :
    (mark c cs).text ++ (mark c cs).rest = c :: cs := by
  unfold mark
  split <;> rfl

/-- The text of a lexeme and what is left are together what there was. -/
theorem read_append (c : Char) (cs : List Char) :
    (read c cs).text ++ (read c cs).rest = c :: cs := by
  unfold read
  split
  · exact word_append c cs
  split
  · exact number_append c cs
  split
  · simp_all
  split
  · simp_all [string_append]
  split
  · simp_all [character_append]
  · exact mark_append c cs

theorem number_text_ne_nil (c : Char) (cs : List Char) : (number c cs).text ≠ [] := by
  unfold number
  split
  · split <;> simp
  · simp

theorem string_text_ne_nil (cs : List Char) : (string cs).text ≠ [] := by
  unfold string
  split <;> simp

theorem character_text_ne_nil (cs : List Char) : (character cs).text ≠ [] := by
  unfold character
  split <;> simp

theorem mark_text_ne_nil (c : Char) (cs : List Char) : (mark c cs).text ≠ [] := by
  unfold mark
  split <;> simp

/-- No lexeme is empty. -/
theorem read_text_ne_nil (c : Char) (cs : List Char) : (read c cs).text ≠ [] := by
  unfold read
  split
  · simp [word]
  split
  · exact number_text_ne_nil c cs
  split
  · simp
  split
  · exact string_text_ne_nil cs
  split
  · exact character_text_ne_nil cs
  · exact mark_text_ne_nil c cs

/-- A lexeme leaves less than there was. -/
theorem read_rest_length_lt (c : Char) (cs : List Char) :
    (read c cs).rest.length < (c :: cs).length := by
  have whole := congrArg List.length (read_append c cs)
  have front := List.length_pos_iff.2 (read_text_ne_nil c cs)
  rw [List.length_append] at whole
  omega

/-- Only reading past the last character ends the source. -/
theorem read_kind_ne_endOfSource (c : Char) (cs : List Char) :
    (read c cs).kind ≠ .endOfSource := by
  unfold read
  split
  · unfold word Kind.ofWord
    dsimp only
    split <;> simp
  split
  · unfold number
    split
    · split <;> simp
    · simp
  split
  · simp
  split
  · unfold string
    split <;> simp
  split
  · unfold character
    split
    · dsimp only
      unfold characterKind
      split <;> try split
      all_goals simp
    · simp
  · unfold mark
    split <;> simp

end Lexeme

namespace Cursor

/-- The start of a source: its characters before the first NUL (`Lexer::new`). -/
def ofSource (source : String) : Cursor :=
  ⟨source.toList.takeWhile (· != '\x00'), 0, 1⟩

/-- Blanks and comments at the front, and what follows them (`skip_whitespace`). A comment runs from
`//` up to the end of its line, which is a token of its own. -/
def splitBlank : List Char → List Char × List Char
  | ' ' :: cs => let (skipped, rest) := splitBlank cs; (' ' :: skipped, rest)
  | '\t' :: cs => let (skipped, rest) := splitBlank cs; ('\t' :: skipped, rest)
  | '\r' :: cs => let (skipped, rest) := splitBlank cs; ('\r' :: skipped, rest)
  | '/' :: '/' :: cs =>
    ('/' :: '/' :: cs.takeWhile (· != '\n'), cs.dropWhile (· != '\n'))
  | cs => ([], cs)

def lineEnds (text : List Char) : UInt32 := UInt32.ofNat (text.count '\n')

/-- The next token and the place behind it (`next_token`). At the end of the source the place stays.
-/
def next (place : Cursor) : Token × Cursor :=
  let (skipped, rest) := splitBlank place.rest
  let start := place.offset + Text.byteLength skipped
  match rest with
  | [] => (⟨.endOfSource, "", start, place.line⟩, ⟨[], start, place.line⟩)
  | c :: cs =>
    let lexeme := Lexeme.read c cs
    let line := place.line + lineEnds lexeme.text
    let token : Token := match lexeme.kind with
      | .fault f => ⟨.fault f, f.message, start, line⟩
      | kind => ⟨kind, String.ofList lexeme.text, start, place.line⟩
    (token, ⟨lexeme.rest, start + Text.byteLength lexeme.text, line⟩)

/-- What is skipped and what is left are together what there was. -/
theorem splitBlank_append (cs : List Char) : (splitBlank cs).1 ++ (splitBlank cs).2 = cs := by
  fun_induction splitBlank cs <;> simp_all

theorem splitBlank_length_le (cs : List Char) : (splitBlank cs).2.length ≤ cs.length := by
  have h := congrArg List.length (splitBlank_append cs)
  rw [List.length_append] at h
  omega

/-- A token other than the end of the source takes at least one character. -/
theorem next_length_lt (place : Cursor) (h : (next place).1.kind ≠ .endOfSource) :
    (next place).2.rest.length < place.rest.length := by
  have shorter := splitBlank_length_le place.rest
  unfold next at h ⊢
  revert h shorter
  generalize splitBlank place.rest = split
  obtain ⟨skipped, rest⟩ := split
  intro h shorter
  cases rest with
  | nil => simp at h
  | cons c cs => exact Nat.lt_of_lt_of_le (Lexeme.read_rest_length_lt c cs) shorter

/-- All tokens from here on, the end of the source included, and the place where it was found. -/
def readAll (place : Cursor) : List Token × Cursor :=
  if _h : (next place).1.kind = .endOfSource then ([(next place).1], (next place).2)
  else
    let (tokens, last) := readAll (next place).2
    ((next place).1 :: tokens, last)
termination_by place.rest.length
decreasing_by exact next_length_lt place _h

end Cursor

/-- The tokens of a source, up to and including its end (`tokenize`). -/
def tokenize (source : String) : List Token := (Cursor.ofSource source).readAll.1

/-- A scanner hands out the tokens of its source once. -/
structure Scanner where
  place : Cursor
  /-- Has the end of the source been handed out? -/
  finished : Bool
  deriving DecidableEq, Repr

namespace Scanner

/-- A scanner at the start of a source. -/
def ofSource (source : String) : Scanner := ⟨.ofSource source, false⟩

/-- All tokens not handed out yet. -/
def drain (s : Scanner) : List Token × Scanner :=
  if s.finished then ([], s)
  else
    let (tokens, place) := s.place.readAll
    (tokens, ⟨place, true⟩)

/-- The next `n` tokens, the end of the source as often as asked for. -/
def take : Nat → Scanner → List Token × Scanner
  | 0, s => ([], s)
  | n + 1, s =>
    let (token, place) := s.place.next
    let (tokens, last) := take n ⟨place, s.finished⟩
    (token :: tokens, last)

/-- The line that the scanner has reached (`Lexer::line`). -/
def line (s : Scanner) : UInt32 := s.place.line

end Scanner

end Pseudocode
