import Pseudocode.Proofs.Token.ByteScanner
import Pseudocode.Proofs.Token.Scanning
/-!
# Lexemes in bytes

Each shape of a lexeme is read in bytes as it is in characters, the text that is cut out begins and
ends where a character does, and lines are counted alike. So the scanner of bytes never fails, and
hands out the tokens of the scanner of characters.

* `readWord?_inBytes`, `readNumber?_inBytes`, `readString?_inBytes`, `readCharacter?_inBytes`,
  `readMark?_inBytes`: the shapes;
* `ByteCursor.next?_inBytes`: the next token.
-/
namespace Pseudocode

/-! ## One lexeme -/

namespace Lexeme
open Text (encode byteLength Bytewise)

/-- The token of a lexeme that starts here. -/
def token (start : Nat) (line : UInt32) (l : Lexeme) : Token :=
  match l.kind with
  | .fault f => ⟨.fault f, f.message, start, line + Cursor.lineEnds l.text⟩
  | kind => ⟨kind, String.ofList l.text, start, line⟩

/-- The place behind a lexeme that starts here. -/
def behind (start : Nat) (line : UInt32) (l : Lexeme) : Cursor :=
  ⟨l.rest, start + byteLength l.text, line + Cursor.lineEnds l.text⟩

/-- What the scanner of bytes hands out for a lexeme. -/
def handed (tail : List Char) (start : Nat) (line : UInt32) (l : Lexeme) :
    Option (Token × ByteCursor) :=
  some (l.token start line, (l.behind start line).inBytes tail)

variable {source : String} {front tail cs : List Char} {offset : Nat} {line line' : UInt32}
  {l : Lexeme}

theorem token_of_real (real : l.kind.isFault = false) (start : Nat) (line : UInt32) :
    l.token start line = ⟨l.kind, String.ofList l.text, start, line⟩ := by
  unfold token
  cases kind : l.kind with
  | fault f => rw [kind] at real; cases real
  | _ => rfl

theorem kind_token (start : Nat) (line : UInt32) (l : Lexeme) :
    (l.token start line).kind = l.kind := by
  unfold token
  cases kind : l.kind <;> rfl

theorem start_token (start : Nat) (line : UInt32) (l : Lexeme) :
    (l.token start line).start = start := by
  unfold token
  cases l.kind <;> rfl

/-- The text of a lexeme is cut out where characters end. -/
theorem slice?_text (whole : source.toList = front ++ (l.text ++ (l.rest ++ tail)))
    (width : offset = byteLength front + byteLength l.text) :
    Text.slice? source (byteLength front) (offset - byteLength front) =
      some (String.ofList l.text) := by
  rw [width, Nat.add_sub_cancel_left, ← String.ofList_toList (s := source), whole,
    Text.slice?_append]

theorem token?_inBytes (whole : source.toList = front ++ (l.text ++ (l.rest ++ tail)))
    (real : l.kind.isFault = false) (width : offset = byteLength front + byteLength l.text)
    (lines : line' = line + Cursor.lineEnds l.text) :
    (Cursor.inBytes tail ⟨l.rest, offset, line'⟩).token? source (byteLength front) l.kind line =
      l.handed tail (byteLength front) line := by
  rw [ByteCursor.token?, handed, token_of_real real, behind, ← width, ← lines]
  exact congrArg _ (slice?_text whole width)

theorem fault_inBytes {f : Fault} {text rest : List Char} {start : Nat}
    (width : offset = start + byteLength text) (lines : line' = line + Cursor.lineEnds text) :
    (Cursor.inBytes tail ⟨rest, offset, line'⟩).fault start f =
      handed tail start line ⟨.fault f, text, rest⟩ := by
  rw [ByteCursor.fault, handed, token, behind, ← width, ← lines]
  rfl

/-- A text without line ends leaves the line. -/
theorem line_eq {text : List Char} (inLine : '\n' ∉ text) :
    line = line + Cursor.lineEnds text := by
  rw [Cursor.lineEnds_eq_zero inLine, UInt32.add_zero]

theorem whole_of_parts {c : Char} (parts : l.text ++ l.rest = c :: cs)
    (whole : source.toList = front ++ (c :: cs ++ tail)) :
    source.toList = front ++ (l.text ++ (l.rest ++ tail)) := by
  rw [← List.append_assoc l.text, parts, whole]

/-! ### Characters from 128 on belong to no word, number or symbol -/

theorem isDigit_wide {c : Char} (wide : 128 ≤ c.toNat) : c.isDigit = false := by
  have value : c.val.toNat = c.toNat := rfl
  have last : '9'.val.toNat = 57 := rfl
  simp only [Char.isDigit, ge_iff_le, UInt32.le_iff_toNat_le, value, last, Bool.and_eq_false_iff,
    decide_eq_false_iff_not]
  omega

theorem isAlpha_wide {c : Char} (wide : 128 ≤ c.toNat) : c.isAlpha = false := by
  have value : c.val.toNat = c.toNat := rfl
  have capital : 'Z'.val.toNat = 90 := rfl
  have small : 'z'.val.toNat = 122 := rfl
  unfold Char.isAlpha Char.isUpper Char.isLower
  simp only [ge_iff_le, UInt32.le_iff_toNat_le, value, capital, small, Bool.or_eq_false_iff,
    Bool.and_eq_false_iff, decide_eq_false_iff_not]
  omega

theorem isWordStart_wide {c : Char} (wide : 128 ≤ c.toNat) : isWordStart c = false := by
  have other : c ≠ '_' := by rintro rfl; exact absurd wide (by decide)
  rw [isWordStart, isAlpha_wide wide, beq_false_of_ne other]
  rfl

theorem isWordPart_wide {c : Char} (wide : 128 ≤ c.toNat) : isWordPart c = false := by
  have other : c ≠ '_' := by rintro rfl; exact absurd wide (by decide)
  rw [isWordPart, Char.isAlphanum, isAlpha_wide wide, isDigit_wide wide, beq_false_of_ne other]
  rfl

theorem pair?_eq_none {c : Char} (less : c ≠ '<') (greater : c ≠ '>') (d : Char) :
    Symbol.pair? c d = none := by
  unfold Symbol.pair?
  simp_all

theorem pair?_wide (c : Char) {d : Char} (wide : 128 ≤ d.toNat) : Symbol.pair? c d = none := by
  unfold Symbol.pair?
  split <;> first | rfl | exact absurd wide (by decide)

theorem pair?_newline (c : Char) : Symbol.pair? c '\n' = none := by
  unfold Symbol.pair?
  simp

theorem single?_wide {c : Char} (wide : 128 ≤ c.toNat) : Symbol.single? c = none := by
  unfold Symbol.single?
  split <;> first | rfl | exact absurd wide (by decide)

/-- A symbol is told by two characters or by one. -/
theorem mark_eq (c : Char) (cs : List Char) :
    mark c cs = match cs.head?.bind (Symbol.pair? c) with
      | some s => ⟨.symbol s, c :: cs.take 1, cs.drop 1⟩
      | none => match Symbol.single? c with
        | some s => ⟨.symbol s, [c], cs⟩
        | none => ⟨.fault .unexpectedCharacter, [c], cs⟩ := by
  by_cases less : c = '<'
  · subst less
    cases cs with
    | nil => rfl
    | cons d cs =>
      unfold mark
      rw [List.head?_cons, Option.bind_some]
      split <;> simp_all [Symbol.pair?, Symbol.single?]
  by_cases greater : c = '>'
  · subst greater
    cases cs with
    | nil => rfl
    | cons d cs =>
      unfold mark
      rw [List.head?_cons, Option.bind_some]
      split <;> simp_all [Symbol.pair?, Symbol.single?]
  have pair : cs.head?.bind (Symbol.pair? c) = none := by
    cases cs with
    | nil => rfl
    | cons d cs => exact pair?_eq_none less greater d
  rw [pair]
  unfold mark Symbol.single?
  split <;> simp_all

/-- A number with a point and a digit behind it. -/
theorem number_of_point {c d : Char} {rest : List Char}
    (point : cs.dropWhile Char.isDigit = '.' :: d :: rest) (digit : d.isDigit = true) :
    number c cs = ⟨.real, c :: cs.takeWhile Char.isDigit ++ '.' :: d :: rest.takeWhile Char.isDigit,
      rest.dropWhile Char.isDigit⟩ := by
  rw [number, point]
  exact if_pos digit

theorem number_of_no_point (c : Char)
    (none : ∀ d rest, cs.dropWhile Char.isDigit = '.' :: d :: rest → d.isDigit ≠ true) :
    number c cs = ⟨.integer, c :: cs.takeWhile Char.isDigit, cs.dropWhile Char.isDigit⟩ := by
  unfold number
  dsimp only
  split
  · rename_i d rest point
    rw [if_neg (none d rest point), point]
  · rfl

/-- What a character literal is hangs on how many bytes stand between its quotes. -/
theorem characterKind_eq (body : List Char) :
    characterKind body = if byteLength body = 0 then .fault .emptyCharacter
      else if byteLength body = 1 then .character else .fault .longCharacter := by
  match body with
  | [] => rfl
  | [c] =>
    have positive := c.utf8Size_pos
    rw [Text.byteLength_cons, Text.byteLength_nil, Nat.add_zero, if_neg (by omega)]
    rfl
  | c :: d :: more =>
    have positive := c.utf8Size_pos
    have positive' := d.utf8Size_pos
    rw [Text.byteLength_cons, Text.byteLength_cons, if_neg (by omega), if_neg (by omega)]
    rfl

/-- The bytes inside a character that is not expected are passed with it. -/
theorem passWhile_isContinuation {more : List UInt8}
    (continued : ∀ b ∈ more, Text.isContinuation b = true) :
    ByteCursor.passWhile ⟨more ++ encode (cs ++ tail), offset, line⟩ Text.isContinuation =
      Cursor.inBytes tail ⟨cs, offset + more.length, line⟩ := by
  have passed : ∀ b ∈ more, (b != 0 && Text.isContinuation b) = true := by
    intro b inside
    rw [continued b inside, Bool.and_true, bne_iff_ne]
    rintro rfl
    exact absurd (continued 0 inside) (by decide)
  have stop : ∀ b ∈ (encode (cs ++ tail)).head?, ¬ (b != 0 && Text.isContinuation b) = true := by
    intro b first
    rw [Text.isContinuation_head?_encode _ first, Bool.and_false]
    exact Bool.noConfusion
  rw [ByteCursor.passWhile, Cursor.inBytes]
  dsimp only
  rw [List.takeWhile_append_of_pos passed, List.dropWhile_append_of_pos passed]
  cases bytes : encode (cs ++ tail) with
  | nil => rw [List.takeWhile_nil, List.append_nil, List.dropWhile_nil]
  | cons b bs =>
    have here := stop b (by rw [bytes]; rfl)
    rw [List.takeWhile_cons, if_neg here, List.dropWhile_cons, if_neg here, List.append_nil]

theorem fault_unexpected {c : Char} {more : List UInt8} {start : Nat}
    (continued : ∀ b ∈ more, Text.isContinuation b = true)
    (width : c.utf8Size = more.length + 1) (inLine : c ≠ '\n') :
    (ByteCursor.passWhile ⟨more ++ encode (cs ++ tail), start + 1, line⟩
      Text.isContinuation).fault start .unexpectedCharacter =
        handed tail start line ⟨.fault .unexpectedCharacter, [c], cs⟩ := by
  rw [passWhile_isContinuation continued]
  refine fault_inBytes ?_ (line_eq (by simpa using inLine.symm))
  rw [Text.byteLength_cons, Text.byteLength_nil, width]
  omega

theorem read_wide {c : Char} (wide : 128 ≤ c.toNat) (cs : List Char) :
    read c cs = ⟨.fault .unexpectedCharacter, [c], cs⟩ := by
  have other {d : Char} (narrow : d.toNat < 128) : c ≠ d := by
    rintro rfl
    omega
  have pair : cs.head?.bind (Symbol.pair? c) = none := by
    cases cs with
    | nil => rfl
    | cons d cs => exact pair?_eq_none (other (by decide)) (other (by decide)) d
  rw [read, isWordStart_wide wide, isDigit_wide wide, if_neg Bool.false_ne_true,
    if_neg Bool.false_ne_true, if_neg (other (by decide)), if_neg (other (by decide)),
    if_neg (other (by decide)), mark_eq, pair, single?_wide wide]

/-! ### The shapes of a lexeme -/

section
variable (ended : Ended tail) (clean : '\x00' ∉ cs)
include ended clean

theorem readWord?_inBytes {c : Char} (narrow : c.toNat < 128) (inLine : c ≠ '\n')
    (whole : source.toList = front ++ (c :: cs ++ tail)) :
    (Cursor.inBytes tail ⟨cs, byteLength front + 1, line⟩).readWord? source (byteLength front) =
      (word c cs).handed tail (byteLength front) line := by
  have whole := whole_of_parts (word_append c cs) whole
  have inLine : '\n' ∉ (word c cs).text := by
    rw [word, List.mem_cons, not_or]
    exact ⟨Ne.symm inLine, fun inside =>
      absurd (List.all_eq_true.1 List.all_takeWhile _ inside) (by decide)⟩
  have width : byteLength front + 1 + byteLength (cs.takeWhile isWordPart) =
      byteLength front + byteLength (word c cs).text := by
    rw [word, Text.byteLength_cons, Text.utf8Size_of_lt narrow, Nat.add_assoc]
  have parts : Bytewise (fun b => isWordPart (Char.ofUInt8 b)) isWordPart :=
    Bytewise.of_wide fun _ => isWordPart_wide
  rw [ByteCursor.readWord?, ByteCursor.passWhile_inBytes ended clean parts]
  show (Text.slice? source _ (byteLength front + 1 + _ - byteLength front)).bind _ = _
  rw [slice?_text whole width]
  exact token?_inBytes whole (isFault_word c cs) width (line_eq inLine)

/-- What a look at two bytes tells is what a look at two characters tells. -/
theorem point_iff :
    ((Cursor.inBytes tail ⟨cs, offset, line⟩).current? = some 0x2E ∧
      (Cursor.inBytes tail ⟨cs, offset, line⟩).peek?.any
        (fun b => (Char.ofUInt8 b).isDigit) = true) ↔
      ∃ d rest, cs = '.' :: d :: rest ∧ d.isDigit = true := by
  have dot := ByteCursor.current?_eq_iff offset line (d := '.') ended clean (by decide)
  have any (o : Option UInt8) : o.any (fun b => (Char.ofUInt8 b).isDigit) =
      (o.map fun b => (Char.ofUInt8 b).isDigit).getD false := by cases o <;> rfl
  have digits : Bytewise (fun b => (Char.ofUInt8 b).isDigit) Char.isDigit :=
    Bytewise.of_wide fun _ => isDigit_wide
  have next {more : List Char} (same : cs = '.' :: more) :
      (Cursor.inBytes tail ⟨cs, offset, line⟩).peek?.any (fun b => (Char.ofUInt8 b).isDigit) =
        (more.head?.map Char.isDigit).getD false := by
    subst same
    rw [ByteCursor.peek?_inBytes _ _ _ _ (by decide) (by decide), any,
      ByteCursor.current?_inBytes _ _ ended (not_or.1 (mt List.mem_cons.2 clean)).2 digits]
  constructor
  · rintro ⟨here, behind⟩
    obtain ⟨more, same⟩ := List.head?_eq_some_iff.1 (dot.1 here)
    rw [next same] at behind
    cases more with
    | nil => cases behind
    | cons d rest => exact ⟨d, rest, same, behind⟩
  · rintro ⟨d, rest, same, digit⟩
    refine ⟨dot.2 (by rw [same]; rfl), ?_⟩
    rw [next same]
    exact digit

theorem readNumber?_inBytes {c : Char} (digit : c.isDigit = true)
    (whole : source.toList = front ++ (c :: cs ++ tail)) :
    (Cursor.inBytes tail ⟨cs, byteLength front + 1, line⟩).readNumber? source (byteLength front) =
      (number c cs).handed tail (byteLength front) line := by
  have whole := whole_of_parts (number_append c cs) whole
  have narrow : c.toNat < 128 :=
    Nat.lt_of_not_le fun wide => by rw [isDigit_wide wide] at digit; cases digit
  have digits : Bytewise (fun b => (Char.ofUInt8 b).isDigit) Char.isDigit :=
    Bytewise.of_wide fun _ => isDigit_wide
  have clean' : '\x00' ∉ cs.dropWhile Char.isDigit := fun inside =>
    clean ((List.dropWhile_sublist _).subset inside)
  have inLine {ds : List Char} : '\n' ∉ ds.takeWhile Char.isDigit := fun inside =>
    absurd (List.all_eq_true.1 List.all_takeWhile _ inside) (by decide)
  have first : c ≠ '\n' := by rintro rfl; exact absurd digit (by decide)
  rw [ByteCursor.readNumber?, ByteCursor.passWhile_inBytes ended clean digits]
  by_cases point : ∃ d rest, cs.dropWhile Char.isDigit = '.' :: d :: rest ∧ d.isDigit = true
  · rw [if_pos ((point_iff ended clean').2 point)]
    obtain ⟨d, rest, point, digit'⟩ := point
    rw [number_of_point point digit'] at whole ⊢
    rw [point, List.mem_cons, not_or] at clean'
    rw [point, ByteCursor.advance?_inBytes (by decide), Option.bind_some,
      ByteCursor.passWhile_inBytes ended clean'.2 digits, List.takeWhile_cons_of_pos digit',
      List.dropWhile_cons_of_pos digit']
    refine token?_inBytes whole rfl ?_ (line_eq ?_)
    · rw [Text.byteLength_append, Text.byteLength_cons c, Text.byteLength_cons '.',
        Text.utf8Size_of_lt narrow, show '.'.utf8Size = 1 from rfl]
      omega
    · rw [← List.takeWhile_cons_of_pos digit']
      simp [inLine, first.symm]
  · rw [if_neg (mt (point_iff ended clean').1 point)]
    have none (d : Char) (rest : List Char)
        (behind : cs.dropWhile Char.isDigit = '.' :: d :: rest) : d.isDigit ≠ true :=
      fun digit' => point ⟨d, rest, behind, digit'⟩
    rw [number_of_no_point c none] at whole ⊢
    refine token?_inBytes whole rfl ?_ (line_eq ?_)
    · rw [Text.byteLength_cons, Text.utf8Size_of_lt narrow, Nat.add_assoc]
    · rw [List.mem_cons, not_or]
      exact ⟨first.symm, inLine⟩

section
variable {quote : Char} (narrow : quote.toNat < 128) (other : quote ≠ '\n') (start : Nat)
  (fits : line.toNat + cs.count '\n' < 2 ^ 32)
include narrow other fits

theorem readUntil?_closed {body rest : List Char}
    (closed : untilQuote quote cs = some (body, rest)) :
    ByteCursor.readUntil? (UInt8.ofNat quote.toNat) (encode (cs ++ tail)) (start + 1) line =
      some (true, Cursor.inBytes tail ⟨rest, start + byteLength (quote :: (body ++ [quote])),
        line + Cursor.lineEnds (quote :: (body ++ [quote]))⟩) := by
  rw [ByteCursor.readUntil?_inBytes ended narrow clean fits, Cursor.untilQuote, closed,
    Cursor.lineEnds_quoted other, Text.byteLength_cons, Text.byteLength_append,
    Text.byteLength_cons, Text.utf8Size_of_lt narrow, ← Nat.add_assoc, ← Nat.add_assoc]
  rfl

theorem readUntil?_open (unclosed : untilQuote quote cs = none) :
    ByteCursor.readUntil? (UInt8.ofNat quote.toNat) (encode (cs ++ tail)) (start + 1) line =
      some (false, Cursor.inBytes tail ⟨[], start + byteLength (quote :: cs),
        line + Cursor.lineEnds (quote :: cs)⟩) := by
  rw [ByteCursor.readUntil?_inBytes ended narrow clean fits, Cursor.untilQuote, unclosed,
    Cursor.lineEnds_cons, if_neg other, UInt32.zero_add, Text.byteLength_cons,
    Text.utf8Size_of_lt narrow, ← Nat.add_assoc]
  rfl

end

theorem readString?_inBytes (fits : line.toNat + cs.count '\n' < 2 ^ 32)
    (whole : source.toList = front ++ ('"' :: cs ++ tail)) :
    (Cursor.inBytes tail ⟨cs, byteLength front + 1, line⟩).readString? source (byteLength front) =
      (string cs).handed tail (byteLength front) line := by
  have whole := whole_of_parts (string_append cs) whole
  have inside : '"'.toNat < 128 := by decide
  cases search : untilQuote '"' cs with
  | none =>
    have shape : string cs = ⟨.fault .unterminatedString, '"' :: cs, []⟩ := by rw [string, search]
    have read := readUntil?_open ended clean inside (by decide) (byteLength front) fits search
    rw [shape]
    exact (congrArg (Option.bind · _) read).trans (fault_inBytes rfl rfl)
  | some parts =>
    obtain ⟨body, rest⟩ := parts
    have shape : string cs = ⟨.string, '"' :: (body ++ ['"']), rest⟩ := by rw [string, search]
    have read := readUntil?_closed ended clean inside (by decide) (byteLength front) fits search
    rw [shape] at whole ⊢
    exact (congrArg (Option.bind · _) read).trans (token?_inBytes whole rfl rfl rfl)

theorem readCharacter?_inBytes (fits : line.toNat + cs.count '\n' < 2 ^ 32)
    (whole : source.toList = front ++ ('\'' :: cs ++ tail)) :
    (Cursor.inBytes tail ⟨cs, byteLength front + 1, line⟩).readCharacter? source
      (byteLength front) = (character cs).handed tail (byteLength front) line := by
  have whole := whole_of_parts (character_append cs) whole
  have inside : '\''.toNat < 128 := by decide
  cases search : untilQuote '\'' cs with
  | none =>
    have shape : character cs = ⟨.fault .unterminatedCharacter, '\'' :: cs, []⟩ := by
      rw [character, search]
    have read := readUntil?_open ended clean inside (by decide) (byteLength front) fits search
    rw [shape]
    exact (congrArg (Option.bind · _) read).trans (fault_inBytes rfl rfl)
  | some parts =>
    obtain ⟨body, rest⟩ := parts
    have shape : character cs = ⟨characterKind body, '\'' :: (body ++ ['\'']), rest⟩ := by
      rw [character, search]
    have read := readUntil?_closed ended clean inside (by decide) (byteLength front) fits search
    have width : byteLength front + byteLength ('\'' :: (body ++ ['\''])) - byteLength front =
        byteLength body + 2 := by
      rw [Nat.add_sub_cancel_left, Text.byteLength_cons, Text.byteLength_append,
        Text.byteLength_cons, Text.byteLength_nil, show '\''.utf8Size = 1 from rfl]
      omega
    rw [shape, characterKind_eq] at whole ⊢
    refine (congrArg (Option.bind · _) read).trans ?_
    change (if byteLength front + byteLength ('\'' :: (body ++ ['\''])) - byteLength front = 2
      then _ else if byteLength front + byteLength ('\'' :: (body ++ ['\''])) - byteLength front = 3
      then _ else _) = _
    rw [width]
    by_cases empty : byteLength body = 0
    · rw [if_pos (by omega), if_pos empty]
      exact fault_inBytes rfl rfl
    rw [if_neg (by omega), if_neg empty]
    rw [if_neg empty] at whole
    by_cases single : byteLength body = 1
    · rw [if_pos single] at whole ⊢
      rw [if_pos (by omega)]
      exact token?_inBytes whole rfl rfl rfl
    · rw [if_neg (by omega), if_neg single]
      exact fault_inBytes rfl rfl

theorem readMark?_inBytes {c : Char} (narrow : c.toNat < 128) (inLine : c ≠ '\n')
    (whole : source.toList = front ++ (c :: cs ++ tail)) :
    (Cursor.inBytes tail ⟨cs, byteLength front + 1, line⟩).readMark? source (byteLength front) c =
      (mark c cs).handed tail (byteLength front) line := by
  have whole := whole_of_parts (mark_append c cs) whole
  have size := Text.utf8Size_of_lt narrow
  have pair : Bytewise (fun b => Symbol.pair? c (Char.ofUInt8 b)) (Symbol.pair? c) :=
    Bytewise.of_wide fun _ => pair?_wide c
  have join {α : Type} (o : Option α) (f : α → Option Symbol) : o.bind f = (o.map f).join := by
    cases o <;> rfl
  have ahead : ((Cursor.inBytes tail ⟨cs, byteLength front + 1, line⟩).current?.bind fun b =>
      Symbol.pair? c (Char.ofUInt8 b)) = cs.head?.bind (Symbol.pair? c) := by
    have told := ByteCursor.current?_inBytes (byteLength front + 1) line ended clean pair
    rw [join, told, ← join]
  rw [ByteCursor.readMark?, ahead]
  rw [mark_eq] at whole ⊢
  cases found : cs.head?.bind (Symbol.pair? c) with
  | some s =>
    rw [found] at whole
    obtain ⟨d, front, paired⟩ := Option.bind_eq_some_iff.1 found
    obtain ⟨rest, rfl⟩ := List.head?_eq_some_iff.1 front
    have narrow' : d.toNat < 128 :=
      Nat.lt_of_not_le fun wide => by rw [pair?_wide c wide] at paired; cases paired
    have inLine' : d ≠ '\n' := by
      rintro rfl
      rw [pair?_newline] at paired
      cases paired
    dsimp only
    rw [ByteCursor.advance?_inBytes narrow', Option.bind_some]
    refine token?_inBytes whole rfl ?_ (line_eq (by simp [inLine.symm, inLine'.symm]))
    show _ = _ + byteLength [c, d]
    rw [Text.byteLength_cons, Text.byteLength_cons, Text.byteLength_nil, size,
      Text.utf8Size_of_lt narrow', Nat.add_assoc]
  | none =>
    rw [found] at whole
    cases single : Symbol.single? c with
    | some s =>
      rw [single] at whole
      refine token?_inBytes whole rfl ?_ (line_eq (by simpa using inLine.symm))
      rw [Text.byteLength_cons, Text.byteLength_nil, size]
    | none => exact fault_unexpected (List.forall_mem_nil _) size inLine

/-- A lexeme is read from its first byte, which has been passed. -/
theorem read?_inBytes {c : Char} (narrow : c.toNat < 128)
    (fits : line.toNat + (c :: cs).count '\n' < 2 ^ 32)
    (whole : source.toList = front ++ (c :: cs ++ tail)) :
    (Cursor.inBytes tail ⟨cs, byteLength front + 1, line⟩).read? source (byteLength front) c =
      (read c cs).handed tail (byteLength front) line := by
  unfold ByteCursor.read? read
  split
  · rename_i start
    exact readWord?_inBytes ended clean narrow (by rintro rfl; exact absurd start (by decide)) whole
  split
  · rename_i digit
    exact readNumber?_inBytes ended clean digit whole
  split
  · rename_i newline
    subst newline
    rw [List.count_cons_self] at fits
    have cut : (Cursor.inBytes tail ⟨cs, byteLength front + 1, line⟩).token? source
        (byteLength front) .endOfLine line = some (⟨.endOfLine, "\n", byteLength front, line⟩,
          Cursor.inBytes tail ⟨cs, byteLength front + 1, line⟩) :=
      congrArg (Option.map _) (slice?_text (l := ⟨.endOfLine, ['\n'], cs⟩) whole rfl)
    change (ByteCursor.token? source (byteLength front) .endOfLine line _).bind _ = _
    rw [cut]
    change (ByteCursor.nextLine? line).map _ = _
    rw [ByteCursor.nextLine?_eq (by omega)]
    rfl
  rename_i inLine
  rw [List.count_cons_of_ne inLine] at fits
  split
  · rename_i quote
    subst quote
    exact readString?_inBytes ended clean fits whole
  split
  · rename_i quote
    subst quote
    exact readCharacter?_inBytes ended clean fits whole
  · exact readMark?_inBytes ended clean narrow inLine whole

end

/-- A character of several bytes is unexpected, and so is its first byte. -/
theorem read?_wide {c : Char} (wide : 128 ≤ c.toNat) {first : UInt8} {more : List UInt8}
    (bytes : String.utf8EncodeChar c = first :: more) (high : 192 ≤ first.toNat)
    (continued : ∀ b ∈ more, Text.isContinuation b = true) (start : Nat) :
    ByteCursor.read? source start (Char.ofUInt8 first)
      ⟨more ++ encode (cs ++ tail), start + 1, line⟩ = (read c cs).handed tail start line := by
  have wide' : 128 ≤ (Char.ofUInt8 first).toNat := Nat.le_trans (by decide) high
  have other {d : Char} (narrow : d.toNat < 128) : Char.ofUInt8 first ≠ d := by
    rintro rfl
    omega
  have nopair : (ByteCursor.current? ⟨more ++ encode (cs ++ tail), start + 1, line⟩).bind
      (fun b => Symbol.pair? (Char.ofUInt8 first) (Char.ofUInt8 b)) = none := by
    cases ByteCursor.current? ⟨more ++ encode (cs ++ tail), start + 1, line⟩ with
    | none => rfl
    | some b => exact pair?_eq_none (other (by decide)) (other (by decide)) _
  have width : c.utf8Size = more.length + 1 := by
    rw [← String.length_utf8EncodeChar, bytes, List.length_cons]
  rw [ByteCursor.read?, isWordStart_wide wide', isDigit_wide wide', if_neg Bool.false_ne_true,
    if_neg Bool.false_ne_true, if_neg (other (by decide)), if_neg (other (by decide)),
    if_neg (other (by decide)), ByteCursor.readMark?, nopair, single?_wide wide', read_wide wide]
  exact fault_unexpected continued width (by rintro rfl; exact absurd wide (by decide))

end Lexeme

/-! ## The next token -/

theorem Cursor.next_eq_token {place : Cursor} {skipped cs : List Char} {c : Char}
    (split : splitBlank place.rest = (skipped, c :: cs)) :
    place.next = ((Lexeme.read c cs).token (place.offset + Text.byteLength skipped) place.line,
      (Lexeme.read c cs).behind (place.offset + Text.byteLength skipped) place.line) := by
  unfold next
  rw [split]
  rfl

theorem Cursor.next_eq_end {place : Cursor} {skipped : List Char}
    (split : splitBlank place.rest = (skipped, [])) :
    place.next = (⟨.endOfSource, "", place.offset + Text.byteLength skipped, place.line⟩,
      ⟨[], place.offset + Text.byteLength skipped, place.line⟩) := by
  unfold next
  rw [split]

open Text (byteLength) in
/-- The scanner of bytes does not fail where there are numbers for the lines of the rest, and hands
out what the scanner of characters hands out. -/
theorem ByteCursor.next?_inBytes {source : String} {place : Cursor} {front tail : List Char}
    (whole : source.toList = front ++ (place.rest ++ tail)) (here : place.offset = byteLength front)
    (ended : Ended tail) (clean : '\x00' ∉ place.rest)
    (fits : place.line.toNat + place.rest.count '\n' < 2 ^ 32) :
    next? source (place.inBytes tail) = some (place.next.1, place.next.2.inBytes tail) := by
  obtain ⟨rest, offset, line⟩ := place
  dsimp only at *
  subst here
  have parts := Cursor.splitBlank_append rest
  have skip := skipBlank_inBytes (byteLength front) line ended clean
  rcases split : Cursor.splitBlank rest with ⟨skipped, left⟩
  rw [split] at parts skip
  dsimp only at parts skip
  rw [← parts, List.append_assoc, ← List.append_assoc front] at whole
  rw [← parts, List.count_append] at fits
  have clean' : '\x00' ∉ left := fun inside => clean (parts ▸ List.mem_append_right _ inside)
  rw [← Text.byteLength_append] at skip
  rw [next?, skip]
  cases left with
  | nil =>
    have none :
        (Cursor.inBytes tail ⟨[], byteLength (front ++ skipped), line⟩).current? = none := by
      have unit : Text.Bytewise (fun _ => ()) (fun _ => ()) := fun _ _ _ => rfl
      exact Option.map_eq_none_iff.1 (current?_inBytes _ _ ended clean' unit)
    rw [Cursor.next_eq_end split, ← Text.byteLength_append, none]
    exact congrArg (Option.map _)
      (Lexeme.slice?_text (l := ⟨.endOfSource, [], []⟩) whole rfl)
  | cons c cs =>
    have fits' : line.toNat + (c :: cs).count '\n' < 2 ^ 32 := by omega
    rw [Cursor.next_eq_token split, ← Text.byteLength_append]
    by_cases narrow : c.toNat < 128
    · have first := (current?_eq_iff (byteLength (front ++ skipped)) line ended clean' narrow).2 rfl
      rw [first]
      dsimp only
      rw [Text.ofUInt8_ofNat_toNat narrow, advance?_inBytes narrow, Option.bind_some]
      exact Lexeme.read?_inBytes ended (fun inside => clean' (List.mem_cons_of_mem _ inside)) narrow
        fits' whole
    · have wide := Nat.le_of_not_lt narrow
      obtain ⟨first, more, bytes, high, continued⟩ := Text.utf8EncodeChar_of_le wide
      have place : Cursor.inBytes tail ⟨c :: cs, byteLength (front ++ skipped), line⟩ =
          ⟨first :: (more ++ Text.encode (cs ++ tail)), byteLength (front ++ skipped), line⟩ := by
        rw [Cursor.inBytes, List.cons_append, Text.encode_cons, bytes]
        rfl
      have alive : first ≠ 0 := by
        rintro rfl
        exact absurd high (by decide)
      rw [place, current?_cons alive]
      exact Lexeme.read?_wide wide bytes high continued _

end Pseudocode
