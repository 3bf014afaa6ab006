import Mathlib.Algebra.Group.Nat.Defs
import Pseudocode.Token.Scanner
import Pseudocode.Proofs.Text.Encoding
/-!
# Scanning byte by byte

A scanner that looks at bytes and not at characters. It fails where it would read past the last
byte, cut a text inside a character, or count more lines than there are numbers for. Its loops stop
where those of the scanner of characters stop: whatever they decide hangs on bytes below 128, which
are characters of their own.

* `ByteCursor.next?`: the next token, unless something goes wrong;
* `passWhile_inBytes`, `readUntil?_inBytes`, `skipBlank_inBytes`: the loops, by induction on the
  characters.
-/
namespace Pseudocode

/-! ## The scanner of bytes -/

namespace Symbol

/-- The symbol of two characters. -/
def pair? : Char → Char → Option Symbol
  | '<', '-' => some assign
  | '<', '=' => some lessEqual
  | '<', '>' => some notEqual
  | '>', '=' => some greaterEqual
  | _, _ => none

/-- The symbol of one character. -/
def single? : Char → Option Symbol
  | '+' => some plus
  | '-' => some minus
  | '*' => some star
  | '/' => some slash
  | '&' => some ampersand
  | '^' => some caret
  | ':' => some colon
  | ',' => some comma
  | '(' => some leftParen
  | ')' => some rightParen
  | '[' => some leftBracket
  | ']' => some rightBracket
  | '.' => some dot
  | '=' => some equal
  | '<' => some less
  | '>' => some greater
  | _ => none

end Symbol

/-- A place in the bytes of a source. -/
structure ByteCursor where
  /-- The bytes that are left, those behind a NUL too. -/
  rest : List UInt8
  offset : Nat
  line : UInt32
  deriving DecidableEq, Repr

namespace ByteCursor

def ofSource (source : String) : ByteCursor := ⟨Text.bytes source, 0, 1⟩

/-- The byte in sight; a NUL is the end. -/
def current? (p : ByteCursor) : Option UInt8 := p.rest.head?.filter (· != 0)

/-- The byte behind the one in sight. -/
def peek? (p : ByteCursor) : Option UInt8 :=
  p.current?.bind fun _ => p.rest[1]?.filter (· != 0)

/-- Passes a byte, which must be there. -/
def advance? (p : ByteCursor) : Option ByteCursor :=
  match p.rest with
  | [] => none
  | _ :: bs => some ⟨bs, p.offset + 1, p.line⟩

/-- The number of the next line, if it has one. -/
def nextLine? (line : UInt32) : Option UInt32 :=
  if line = 0xFFFFFFFF then none else some (line + 1)

/-- Passes all bytes of a class, up to the first that is not in it. -/
def passWhile (p : ByteCursor) (holds : UInt8 → Bool) : ByteCursor :=
  ⟨p.rest.dropWhile fun b => b != 0 && holds b,
    p.offset + (p.rest.takeWhile fun b => b != 0 && holds b).length, p.line⟩

/-- Passes blanks and comments. -/
def skipBlank : ByteCursor → ByteCursor
  | ⟨b :: bs, offset, line⟩ =>
    if b = 0x20 ∨ b = 0x09 ∨ b = 0x0D then skipBlank ⟨bs, offset + 1, line⟩
    else if b = 0x2F ∧ peek? ⟨b :: bs, offset, line⟩ = some 0x2F then
      skipBlank (passWhile ⟨bs, offset + 1, line⟩ (· != 0x0A))
    else ⟨b :: bs, offset, line⟩
  | ⟨[], offset, line⟩ => ⟨[], offset, line⟩
termination_by p => p.rest.length
decreasing_by
  · exact Nat.lt_succ_self _
  · exact Nat.lt_succ_of_le (List.dropWhile_sublist _).length_le

/-- Passes everything up to the next `quote` and tells if there is one. -/
def readUntil? (quote : UInt8) : List UInt8 → Nat → UInt32 → Option (Bool × ByteCursor)
  | [], offset, line => some (false, ⟨[], offset, line⟩)
  | b :: bs, offset, line =>
    if b = 0 then some (false, ⟨b :: bs, offset, line⟩)
    else if b = quote then some (true, ⟨bs, offset + 1, line⟩)
    else if b = 0x0A then (nextLine? line).bind (readUntil? quote bs (offset + 1))
    else readUntil? quote bs (offset + 1) line

/-- The token whose text runs from `start` up to here. -/
def token? (source : String) (start : Nat) (kind : Kind) (line : UInt32) (p : ByteCursor) :
    Option (Token × ByteCursor) :=
  (Text.slice? source start (p.offset - start)).map fun text => (⟨kind, text, start, line⟩, p)

def fault (start : Nat) (f : Fault) (p : ByteCursor) : Option (Token × ByteCursor) :=
  some (⟨.fault f, f.message, start, p.line⟩, p)

def readWord? (source : String) (start : Nat) (p : ByteCursor) : Option (Token × ByteCursor) :=
  let p := p.passWhile fun b => Lexeme.isWordPart (Char.ofUInt8 b)
  (Text.slice? source start (p.offset - start)).bind fun word =>
    p.token? source start (.ofWord word) p.line

def readNumber? (source : String) (start : Nat) (p : ByteCursor) : Option (Token × ByteCursor) :=
  let p := p.passWhile fun b => (Char.ofUInt8 b).isDigit
  if p.current? = some 0x2E ∧ p.peek?.any (fun b => (Char.ofUInt8 b).isDigit) then
    p.advance?.bind fun p =>
      (p.passWhile fun b => (Char.ofUInt8 b).isDigit).token? source start .real p.line
  else p.token? source start .integer p.line

def readString? (source : String) (start : Nat) (p : ByteCursor) : Option (Token × ByteCursor) :=
  (readUntil? 0x22 p.rest p.offset p.line).bind fun (closed, q) =>
    if closed then q.token? source start .string p.line
    else q.fault start .unterminatedString

def readCharacter? (source : String) (start : Nat) (p : ByteCursor) :
    Option (Token × ByteCursor) :=
  (readUntil? 0x27 p.rest p.offset p.line).bind fun (closed, q) =>
    if closed then
      if q.offset - start = 2 then q.fault start .emptyCharacter
      else if q.offset - start = 3 then q.token? source start .character p.line
      else q.fault start .longCharacter
    else q.fault start .unterminatedCharacter

def readMark? (source : String) (start : Nat) (first : Char) (p : ByteCursor) :
    Option (Token × ByteCursor) :=
  match p.current?.bind fun b => Symbol.pair? first (Char.ofUInt8 b) with
  | some s => p.advance?.bind fun q => q.token? source start (.symbol s) p.line
  | none =>
    match Symbol.single? first with
    | some s => p.token? source start (.symbol s) p.line
    | none => (p.passWhile Text.isContinuation).fault start .unexpectedCharacter

/-- The token that begins with `first`, which is passed. -/
def read? (source : String) (start : Nat) (first : Char) (p : ByteCursor) :
    Option (Token × ByteCursor) :=
  if Lexeme.isWordStart first then p.readWord? source start
  else if first.isDigit then p.readNumber? source start
  else if first = '\n' then
    (p.token? source start .endOfLine p.line).bind fun (token, q) =>
      (nextLine? q.line).map fun line => (token, { q with line := line })
  else if first = '"' then p.readString? source start
  else if first = '\'' then p.readCharacter? source start
  else p.readMark? source start first

/-- The next token and the place behind it. -/
def next? (source : String) (p : ByteCursor) : Option (Token × ByteCursor) :=
  let p := p.skipBlank
  match p.current? with
  | none => p.token? source p.offset .endOfSource p.line
  | some b => p.advance?.bind (read? source p.offset (Char.ofUInt8 b))

end ByteCursor

/-! ## Where bytes and characters meet -/

/-- A byte cursor at the place of a cursor; `tail` is behind the end of the source. -/
def Cursor.inBytes (tail : List Char) (place : Cursor) : ByteCursor :=
  ⟨Text.encode (place.rest ++ tail), place.offset, place.line⟩

/-- What is behind the end of a source: nothing, or a NUL and anything. -/
def Ended (tail : List Char) : Prop := ∀ c ∈ tail.head?, c = '\x00'

section
variable {tail cs : List Char} {offset : Nat} {line : UInt32}

open Text (encode byteLength Bytewise)

variable (offset line) in
/-- What the byte in sight tells is what the next character tells. -/
theorem ByteCursor.current?_inBytes (ended : Ended tail) (clean : '\x00' ∉ cs) {α : Type}
    {p : UInt8 → α} {q : Char → α} (same : Bytewise p q) :
    (Cursor.inBytes tail ⟨cs, offset, line⟩).current?.map p = cs.head?.map q := by
  have pairs : Bytewise (fun b => (p b, b != 0)) (fun c => (q c, c != '\x00')) :=
    fun c b inside => Prod.ext (same c b inside) (Bytewise.nul c b inside)
  have first := Text.head?_encode pairs (cs ++ tail)
  show ((encode (cs ++ tail)).head?.filter (· != 0)).map p = cs.head?.map q
  cases cs with
  | nil =>
    cases tail with
    | nil => rfl
    | cons c tail =>
      obtain rfl := ended c rfl
      rfl
  | cons c cs =>
    have alive : (c != '\x00') = true := bne_iff_ne.2 fun same => clean (same ▸ List.mem_cons_self)
    cases bytes : (encode (c :: cs ++ tail)).head? with
    | none => rw [bytes] at first; cases first
    | some b =>
      rw [bytes] at first
      obtain ⟨told, zero⟩ := Prod.mk.inj (Option.some.inj first)
      rw [Option.filter_some, if_pos (zero.trans alive), Option.map_some, told]
      rfl

/-- Another character comes behind the byte of the one in sight. -/
theorem ByteCursor.advance?_inBytes {c : Char} (narrow : c.toNat < 128) :
    (Cursor.inBytes tail ⟨c :: cs, offset, line⟩).advance? =
      some (Cursor.inBytes tail ⟨cs, offset + 1, line⟩) := by
  rw [advance?, Cursor.inBytes, List.cons_append, Text.encode_cons,
    Text.utf8EncodeChar_of_lt narrow]
  rfl

variable (tail cs offset line) in
theorem ByteCursor.peek?_inBytes {c : Char} (narrow : c.toNat < 128) (alive : c ≠ '\x00') :
    (Cursor.inBytes tail ⟨c :: cs, offset, line⟩).peek? =
      (Cursor.inBytes tail ⟨cs, offset + 1, line⟩).current? := by
  have byte : (UInt8.ofNat c.toNat != 0) = true := by
    have told := Text.Bytewise.beq (d := '\x00') (by decide) c _
      (Text.utf8EncodeChar_of_lt narrow ▸ List.mem_cons_self)
    rw [bne, show (UInt8.ofNat c.toNat == 0) = (c == '\x00') from told, beq_false_of_ne alive]
    rfl
  rw [peek?, current?, current?, Cursor.inBytes, List.cons_append, Text.encode_cons,
    Text.utf8EncodeChar_of_lt narrow, List.cons_append, List.head?_cons, Option.filter_some,
    if_pos byte, Option.bind_some, List.getElem?_cons_succ, List.nil_append,
    ← List.head?_eq_getElem?]
  rfl

/-- A loop over a class passes the characters of the class. -/
theorem ByteCursor.passWhile_inBytes (ended : Ended tail) (clean : '\x00' ∉ cs)
    {p : UInt8 → Bool} {q : Char → Bool} (same : Bytewise p q) :
    (Cursor.inBytes tail ⟨cs, offset, line⟩).passWhile p =
      Cursor.inBytes tail ⟨cs.dropWhile q, offset + byteLength (cs.takeWhile q), line⟩ := by
  have stop : tail.takeWhile (fun c => c != '\x00' && q c) = [] := by
    cases tail with
    | nil => rfl
    | cons c tail =>
      obtain rfl := ended c rfl
      rfl
  have front : (cs ++ tail).takeWhile (fun c => c != '\x00' && q c) = cs.takeWhile q := by
    induction cs with
    | nil => exact stop
    | cons c cs ih =>
      obtain ⟨alive, clean⟩ := not_or.1 (mt List.mem_cons.2 clean)
      have passed : (c != '\x00' && q c) = q c := by
        rw [bne_iff_ne.2 (Ne.symm alive), Bool.true_and]
      rw [List.cons_append, List.takeWhile_cons, List.takeWhile_cons, passed, ih clean]
  have back : (cs ++ tail).dropWhile (fun c => c != '\x00' && q c) = cs.dropWhile q ++ tail := by
    have whole := List.takeWhile_append_dropWhile (p := fun c => c != '\x00' && q c)
      (l := cs ++ tail)
    have parts := List.takeWhile_append_dropWhile (p := q) (l := cs)
    rw [front] at whole
    conv at whole => rhs; rw [← parts]
    exact List.append_cancel_left (whole.trans (List.append_assoc ..))
  rw [passWhile, Cursor.inBytes]
  dsimp only
  rw [(Bytewise.nul.and same).takeWhile, (Bytewise.nul.and same).dropWhile, front, back, Text.length_encode]
  rfl

theorem Cursor.lineEnds_cons (c : Char) (cs : List Char) :
    lineEnds (c :: cs) = (if c = '\n' then 1 else 0) + lineEnds cs := by
  unfold lineEnds
  rw [List.count_cons, Nat.add_comm, UInt32.ofNat_add]
  by_cases ends : c = '\n'
  · rw [if_pos ends, if_pos (beq_iff_eq.2 ends)]
    rfl
  · rw [if_neg ends, if_neg (mt beq_iff_eq.1 ends)]
    rfl

theorem Cursor.lineEnds_eq_zero {cs : List Char} (none : '\n' ∉ cs) : lineEnds cs = 0 := by
  rw [lineEnds, List.count_eq_zero_of_not_mem none]
  rfl

theorem Cursor.lineEnds_quoted {quote : Char} (other : quote ≠ '\n') (body : List Char) :
    lineEnds (quote :: (body ++ [quote])) = lineEnds body := by
  rw [lineEnds, List.count_cons_of_ne other, List.count_append, List.count_singleton,
    beq_false_of_ne other]
  rfl

theorem Lexeme.untilQuote_cons (quote c : Char) (cs : List Char) :
    untilQuote quote (c :: cs) =
      if c = quote then some ([], cs)
      else (untilQuote quote cs).map fun (body, rest) => (c :: body, rest) := by
  unfold untilQuote
  by_cases same : c = quote
  · rw [if_pos same, List.dropWhile_cons_of_neg (by simpa using same),
      List.takeWhile_cons_of_neg (by simpa using same)]
  · rw [if_neg same, List.dropWhile_cons_of_pos (by simpa using same),
      List.takeWhile_cons_of_pos (by simpa using same)]
    cases cs.dropWhile (· != quote) <;> rfl

/-- While lines can be counted, the next line has a number. -/
theorem ByteCursor.nextLine?_eq {line : UInt32} (fits : line.toNat + 1 < 2 ^ 32) :
    nextLine? line = some (line + 1) := by
  rw [nextLine?, if_neg]
  rintro rfl
  exact absurd fits (by decide)

/-- A byte from 128 on is neither a quote nor the end of a line. -/
theorem ByteCursor.readUntil?_wide {quote : UInt8} (narrow : quote.toNat < 128) (bs : List UInt8) :
    ∀ {more : List UInt8} {offset : Nat}, (∀ b ∈ more, 128 ≤ b.toNat) →
      readUntil? quote (more ++ bs) offset line = readUntil? quote bs (offset + more.length) line
  | [], _, _ => rfl
  | b :: more, offset, wide => by
    obtain ⟨high, wide⟩ := List.forall_mem_cons.1 wide
    have other {d : UInt8} (low : d.toNat < 128) : b ≠ d := fun same => by subst same; omega
    rw [List.cons_append, readUntil?, if_neg (other (by decide)), if_neg (other narrow),
      if_neg (other (by decide)), readUntil?_wide narrow bs wide, List.length_cons]
    congr 1
    omega

/-- Any character that ends neither the source nor the search is passed. -/
theorem ByteCursor.readUntil?_cons {quote c : Char} (narrow : quote.toNat < 128)
    (alive : c ≠ '\x00') (other : c ≠ quote) (bs : List UInt8)
    (fits : line.toNat + (if c = '\n' then 1 else 0) < 2 ^ 32) :
    readUntil? (UInt8.ofNat quote.toNat) (String.utf8EncodeChar c ++ bs) offset line =
      readUntil? (UInt8.ofNat quote.toNat) bs (offset + c.utf8Size)
        (line + if c = '\n' then 1 else 0) := by
  by_cases small : c.toNat < 128
  · have nul : UInt8.ofNat c.toNat = 0 ↔ c = '\x00' :=
      Text.ofNat_toNat_eq_iff (d := '\x00') small (by decide)
    have newline : UInt8.ofNat c.toNat = 0x0A ↔ c = '\n' :=
      Text.ofNat_toNat_eq_iff (d := '\n') small (by decide)
    rw [Text.utf8EncodeChar_of_lt small, List.singleton_append, readUntil?,
      Text.utf8Size_of_lt small, if_neg (mt nul.1 alive),
      if_neg (mt (Text.ofNat_toNat_eq_iff small narrow).1 other)]
    by_cases next : c = '\n'
    · rw [if_pos next] at fits
      rw [if_pos (newline.2 next), nextLine?_eq fits, Option.bind_some, if_pos next]
    · rw [if_neg (mt newline.1 next), if_neg next, UInt32.add_zero]
  · have large := Nat.le_of_not_lt small
    have byte : (UInt8.ofNat quote.toNat).toNat < 128 := by
      rw [UInt8.toNat_ofNat']
      omega
    have next : c ≠ '\n' := by rintro rfl; exact absurd large (by decide)
    rw [readUntil?_wide byte _ fun b inside => Text.le_of_mem_utf8EncodeChar large inside,
      String.length_utf8EncodeChar, if_neg next, UInt32.add_zero]

/-- Is there a quote ahead, and the place behind it, or else the end. -/
def Cursor.untilQuote (quote : Char) (place : Cursor) : Bool × Cursor :=
  match Lexeme.untilQuote quote place.rest with
  | some (body, rest) =>
    (true, ⟨rest, place.offset + byteLength body + 1, place.line + lineEnds body⟩)
  | none => (false, ⟨[], place.offset + byteLength place.rest, place.line + lineEnds place.rest⟩)

theorem Cursor.untilQuote_cons {quote c : Char} (other : c ≠ quote) (cs : List Char) :
    Cursor.untilQuote quote ⟨c :: cs, offset, line⟩ =
      Cursor.untilQuote quote ⟨cs, offset + c.utf8Size, line + if c = '\n' then 1 else 0⟩ := by
  unfold untilQuote
  rw [Lexeme.untilQuote_cons, if_neg other]
  cases Lexeme.untilQuote quote cs with
  | none =>
    dsimp only [Option.map_none]
    rw [lineEnds_cons, UInt32.add_assoc, Text.byteLength_cons, Nat.add_assoc]
  | some parts =>
    dsimp only [Option.map_some]
    rw [lineEnds_cons, UInt32.add_assoc, Text.byteLength_cons, Nat.add_assoc offset c.utf8Size]

/-- The search for a quote, by induction on the characters. -/
theorem ByteCursor.readUntil?_inBytes (ended : Ended tail) {quote : Char}
    (narrow : quote.toNat < 128) : ∀ {cs : List Char} {offset : Nat} {line : UInt32}, '\x00' ∉ cs →
      line.toNat + cs.count '\n' < 2 ^ 32 →
      readUntil? (UInt8.ofNat quote.toNat) (encode (cs ++ tail)) offset line =
        some ((Cursor.untilQuote quote ⟨cs, offset, line⟩).map id (Cursor.inBytes tail)) := by
  intro cs
  induction cs with
  | nil =>
    intro offset line clean fits
    have same : Cursor.untilQuote quote ⟨[], offset, line⟩ = (false, ⟨[], offset, line⟩) := by
      show (false, (⟨[], _, line + Cursor.lineEnds []⟩ : Cursor)) = _
      rw [Cursor.lineEnds_eq_zero List.not_mem_nil, UInt32.add_zero]
      rfl
    rw [same]
    cases tail with
    | nil => rfl
    | cons c tail =>
      obtain rfl := ended c rfl
      rfl
  | cons c cs ih =>
    intro offset line clean fits
    obtain ⟨alive, clean⟩ := not_or.1 (mt List.mem_cons.2 clean)
    by_cases ends : c = quote
    · have nul : UInt8.ofNat c.toNat = 0 ↔ c = '\x00' :=
        Text.ofNat_toNat_eq_iff (d := '\x00') (ends ▸ narrow) (by decide)
      have here : Cursor.untilQuote quote ⟨c :: cs, offset, line⟩ =
          (true, ⟨cs, offset + 1, line⟩) := by
        rw [Cursor.untilQuote, Lexeme.untilQuote_cons, if_pos ends]
        dsimp only
        rw [Cursor.lineEnds_eq_zero List.not_mem_nil, UInt32.add_zero]
        rfl
      rw [here, List.cons_append, Text.encode_cons, Text.utf8EncodeChar_of_lt (ends ▸ narrow),
        List.singleton_append, readUntil?, if_neg (mt nul.1 (Ne.symm alive)), if_pos (by rw [ends])]
      rfl
    · have here : line.toNat + (if c = '\n' then 1 else 0) < 2 ^ 32 := by
        rw [List.count_cons] at fits
        simp only [beq_iff_eq] at fits
        omega
      have count : (line + if c = '\n' then 1 else 0).toNat + cs.count '\n' =
          line.toNat + (c :: cs).count '\n' := by
        rw [List.count_cons, UInt32.toNat_add]
        by_cases next : c = '\n'
        · rw [if_pos next] at here ⊢
          rw [if_pos (beq_iff_eq.2 next), UInt32.toNat_one, Nat.mod_eq_of_lt here]
          omega
        · rw [if_neg next] at here ⊢
          rw [if_neg (mt beq_iff_eq.1 next), UInt32.toNat_zero, Nat.mod_eq_of_lt here]
          omega
      rw [List.cons_append, Text.encode_cons, readUntil?_cons narrow (Ne.symm alive) ends _ here,
        ih clean (count ▸ fits), Cursor.untilQuote_cons ends]

variable (offset line) in
theorem ByteCursor.current?_eq_iff (ended : Ended tail) (clean : '\x00' ∉ cs) {d : Char}
    (narrow : d.toNat < 128) :
    (Cursor.inBytes tail ⟨cs, offset, line⟩).current? = some (UInt8.ofNat d.toNat) ↔
      cs.head? = some d := by
  have told := current?_inBytes offset line ended clean (Bytewise.beq narrow)
  cases here : (Cursor.inBytes tail ⟨cs, offset, line⟩).current? with
  | none =>
    rw [here] at told
    cases cs with
    | nil => simp
    | cons c cs => cases told
  | some b =>
    rw [here] at told
    cases cs with
    | nil => cases told
    | cons c cs =>
      have same : (b == UInt8.ofNat d.toNat) = (c == d) := Option.some.inj told
      rw [Option.some_inj, List.head?_cons, Option.some_inj, ← beq_iff_eq, ← beq_iff_eq (a := c),
        same]

theorem ByteCursor.current?_cons {b : UInt8} (alive : b ≠ 0) (bs : List UInt8) :
    current? ⟨b :: bs, offset, line⟩ = some b := by
  rw [current?, List.head?_cons, Option.filter_some, if_pos (bne_iff_ne.2 alive)]

/-- Characters that begin neither a blank nor a comment are not skipped. -/
theorem ByteCursor.skipBlank_eq_self (ended : Ended tail) (clean : '\x00' ∉ cs)
    (dark : ∀ c ∈ cs.head?, c ≠ ' ' ∧ c ≠ '\t' ∧ c ≠ '\r')
    (code : ∀ more, cs ≠ '/' :: '/' :: more) :
    (Cursor.inBytes tail ⟨cs, offset, line⟩).skipBlank =
      Cursor.inBytes tail ⟨cs, offset, line⟩ := by
  have tells {d : Char} (narrow : d.toNat < 128) :=
    current?_eq_iff offset line ended clean narrow
  unfold Cursor.inBytes at tells ⊢
  dsimp only at tells ⊢
  cases bytes : encode (cs ++ tail) with
  | nil => rw [skipBlank]
  | cons b bs =>
    rw [bytes] at tells
    rw [skipBlank, if_neg, if_neg]
    · rintro ⟨rfl, behind⟩
      obtain ⟨more, rfl⟩ := List.head?_eq_some_iff.1
        ((tells (d := '/') (by decide)).1 (current?_cons (by decide) bs))
      obtain ⟨-, clean⟩ := not_or.1 (mt List.mem_cons.2 clean)
      rw [← bytes] at behind
      have second := (peek?_inBytes _ _ _ _ (by decide) (by decide)).symm.trans behind
      obtain ⟨more', rfl⟩ := List.head?_eq_some_iff.1
        ((current?_eq_iff _ _ (d := '/') ended clean (by decide)).1 second)
      exact code more' rfl
    · rintro (rfl | rfl | rfl)
      · exact (dark _ ((tells (d := ' ') (by decide)).1 (current?_cons (by decide) bs))).1 rfl
      · exact (dark _ ((tells (d := '\t') (by decide)).1 (current?_cons (by decide) bs))).2.1 rfl
      · exact (dark _ ((tells (d := '\r') (by decide)).1 (current?_cons (by decide) bs))).2.2 rfl

theorem ByteCursor.skipBlank_of_blank {c : Char} (blank : c = ' ' ∨ c = '\t' ∨ c = '\r')
    (cs : List Char) : (Cursor.inBytes tail ⟨c :: cs, offset, line⟩).skipBlank =
      (Cursor.inBytes tail ⟨cs, offset + c.utf8Size, line⟩).skipBlank := by
  rcases blank with rfl | rfl | rfl
  all_goals
    show skipBlank ⟨_ :: encode (cs ++ tail), offset, line⟩ = _
    rw [skipBlank, if_pos (by decide)]
    rfl

theorem ByteCursor.skipBlank_of_comment (ended : Ended tail) (clean : '\x00' ∉ cs) :
    (Cursor.inBytes tail ⟨'/' :: '/' :: cs, offset, line⟩).skipBlank =
      Cursor.inBytes tail ⟨cs.dropWhile (· != '\n'),
        offset + byteLength ('/' :: '/' :: cs.takeWhile (· != '\n')), line⟩ := by
  have clean' : '\x00' ∉ '/' :: cs := by
    rw [List.mem_cons, not_or]
    exact ⟨by decide, clean⟩
  have behind := peek?_inBytes tail ('/' :: cs) offset line (c := '/') (by decide) (by decide)
  rw [(current?_eq_iff _ _ (d := '/') ended clean' (by decide)).2 rfl] at behind
  have newline : Bytewise (· != 0x0A) (· != '\n') :=
    (Bytewise.beq (d := '\n') (by decide)).comp (!·)
  have rest : ('/' :: cs).dropWhile (· != '\n') = cs.dropWhile (· != '\n') :=
    List.dropWhile_cons_of_pos (by decide)
  have whole : ('/' :: cs).takeWhile (· != '\n') = '/' :: cs.takeWhile (· != '\n') :=
    List.takeWhile_cons_of_pos (by decide)
  calc (Cursor.inBytes tail ⟨'/' :: '/' :: cs, offset, line⟩).skipBlank
      = ((Cursor.inBytes tail ⟨'/' :: cs, offset + 1, line⟩).passWhile (· != 0x0A)).skipBlank := by
        show skipBlank ⟨0x2F :: encode ('/' :: cs ++ tail), offset, line⟩ = _
        rw [skipBlank, if_neg (by decide), if_pos ⟨rfl, behind⟩]
        rfl
    _ = (Cursor.inBytes tail ⟨cs.dropWhile (· != '\n'),
          offset + byteLength ('/' :: '/' :: cs.takeWhile (· != '\n')), line⟩).skipBlank := by
        rw [passWhile_inBytes ended clean' newline, rest, whole, Text.byteLength_cons '/' (_ :: _),
          ← Nat.add_assoc]
        rfl
    _ = _ := by
        refine skipBlank_eq_self ended
          (fun inside => clean ((List.dropWhile_sublist _).subset inside)) (fun c front => ?_)
          (fun more front => ?_)
        · have stop := List.head?_dropWhile_not (· != '\n') cs
          rw [front] at stop
          obtain rfl : c = '\n' := by simpa using stop
          decide
        · have stop := List.head?_dropWhile_not (· != '\n') cs
          rw [front] at stop
          exact absurd stop Bool.noConfusion

variable (offset line) in
/-- The blanks and the comment that are skipped, by induction on the blanks. -/
theorem ByteCursor.skipBlank_inBytes (ended : Ended tail) (clean : '\x00' ∉ cs) :
    (Cursor.inBytes tail ⟨cs, offset, line⟩).skipBlank =
      Cursor.inBytes tail ⟨(Cursor.splitBlank cs).2,
        offset + byteLength (Cursor.splitBlank cs).1, line⟩ := by
  fun_induction Cursor.splitBlank cs generalizing offset with
  | case1 cs skipped rest parts ih | case2 cs skipped rest parts ih
  | case3 cs skipped rest parts ih =>
    rw [skipBlank_of_blank (by decide), ih _ (not_or.1 (mt List.mem_cons.2 clean)).2, parts,
      Text.byteLength_cons, Nat.add_assoc]
  | case4 cs =>
    exact skipBlank_of_comment ended fun inside =>
      clean (List.mem_cons_of_mem _ (List.mem_cons_of_mem _ inside))
  | case5 cs space tab feed code =>
    refine skipBlank_eq_self ended clean (fun c front => ?_) code
    obtain ⟨more, rfl⟩ := List.head?_eq_some_iff.1 front
    exact ⟨fun same => space more (same ▸ rfl), fun same => tab more (same ▸ rfl),
      fun same => feed more (same ▸ rfl)⟩

end

end Pseudocode
