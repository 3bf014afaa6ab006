import Pseudocode.Proofs.Expr.FirstProblem
import Pseudocode.Proofs.Token.Tiling
/-!
# The line of a fault

A literal that is none may run over line ends before the scanner finds out. Its token names the line
that the scanner has reached then, on which the lexeme ends, while the token of a good literal names
the line on which it starts. The two are the same just if there is no line end in the lexeme. The
parser passes the line on.

* `Lexeme.Faulty`, `Lexeme.faulty_read`: the lexemes that are faults;
* `Token.Blames`, `Cursor.Within.blames`: the token of a fault, at a place in the source;
* `Cursor.blames_of_getElem?`: all of them, in the order in which they are handed out;
* `parse_lexical`: a lexical error of the parser is the token of a fault;
* `fault_line_is_last`: the lines of faults and of the errors that report them.
-/
namespace Pseudocode

open Text (byteLength)

namespace Lexeme

/-- The texts that are faults, and what may follow them. A literal without its second quote goes up
to the end of what is scanned. -/
inductive Faulty : Fault → List Char → List Char → Prop
  | openString {body : List Char} (unclosed : '"' ∉ body) :
    Faulty .unterminatedString ('"' :: body) []
  | openCharacter {body : List Char} (unclosed : '\'' ∉ body) :
    Faulty .unterminatedCharacter ('\'' :: body) []
  | empty (rest : List Char) : Faulty .emptyCharacter ['\'', '\''] rest
  | long {body : List Char} (closed : '\'' ∉ body) (long : 1 < byteLength body)
    (rest : List Char) : Faulty .longCharacter ('\'' :: (body ++ ['\''])) rest
  | unexpected {c : Char} (other : c ≠ '\n') (rest : List Char) :
    Faulty .unexpectedCharacter [c] rest

theorem faulty_string {cs : List Char} {f : Fault} (fault : (string cs).kind = .fault f) :
    Faulty f (string cs).text (string cs).rest := by
  unfold string at fault ⊢
  split at fault
  · cases fault
  · rename_i unclosed
    cases fault
    exact .openString (not_mem_of_untilQuote_eq_none unclosed)

theorem faulty_character {cs : List Char} {f : Fault} (fault : (character cs).kind = .fault f) :
    Faulty f (character cs).text (character cs).rest := by
  unfold character at fault ⊢
  split at fault
  · rename_i body rest closed
    dsimp only at fault ⊢
    rw [characterKind_eq] at fault
    split at fault
    · rename_i width
      cases fault
      cases body with
      | nil => exact .empty rest
      | cons c body =>
        have positive := c.utf8Size_pos
        rw [Text.byteLength_cons] at width
        omega
    · split at fault
      · cases fault
      · cases fault
        exact .long (not_mem_of_untilQuote closed) (by omega) rest
  · rename_i unclosed
    cases fault
    exact .openCharacter (not_mem_of_untilQuote_eq_none unclosed)

theorem faulty_mark {c : Char} {cs : List Char} {f : Fault} (other : c ≠ '\n')
    (fault : (mark c cs).kind = .fault f) : Faulty f (mark c cs).text (mark c cs).rest := by
  unfold mark at fault ⊢
  split at fault <;> cases fault
  exact .unexpected other cs

/-- A lexeme that is a fault is one of the texts that are faults. -/
theorem faulty_read {c : Char} {cs : List Char} {f : Fault} :
    (read c cs).kind = .fault f → Faulty f (read c cs).text (read c cs).rest := by
  unfold read
  split
  · intro fault
    have real := isFault_word c cs
    rw [fault] at real
    cases real
  split
  · intro fault
    have real := isFault_number c cs
    rw [fault] at real
    cases real
  split
  · exact nofun
  split
  · exact faulty_string
  split
  · exact faulty_character
  · rename_i other _ _
    exact faulty_mark other

/-- Faults that are found on the line on which they start. -/
theorem Faulty.inLine {f : Fault} {text rest : List Char} (faulty : Faulty f text rest)
    (short : f = .emptyCharacter ∨ f = .unexpectedCharacter) : '\n' ∉ text := by
  cases faulty with
  | openString | openCharacter | long => simp at short
  | empty => decide
  | unexpected other => simpa using other.symm

theorem Faulty.rest_eq_nil {f : Fault} {text rest : List Char} (faulty : Faulty f text rest)
    (unclosed : f = .unterminatedString ∨ f = .unterminatedCharacter) : rest = [] := by
  cases faulty with
  | openString | openCharacter => rfl
  | empty | long | unexpected => simp at unclosed

end Lexeme

/-! ## Tokens of faults -/

/-- What the token of a fault says of a source whose scan goes on at byte `stop`. -/
structure Token.Blames (t : Token) (source : String) (f : Fault) (stop : Nat) : Prop where
  lexeme : t.lexeme = f.message
  /-- It starts where the text does that is the fault. -/
  text : ∃ front text rest,
    source.toList.takeWhile (· != '\x00') = front ++ (text ++ rest) ∧
    byteLength front = t.start ∧ byteLength (front ++ text) = stop ∧
    Lexeme.Faulty f text rest
  /-- It names the line on which that text ends. -/
  line : t.line = UInt32.ofNat (1 + ((Text.bytes source).take stop).count 0x0A)
  /-- Two quotes with nothing between them, and characters of no token, start on this line. -/
  short : f = .emptyCharacter ∨ f = .unexpectedCharacter →
    t.line = UInt32.ofNat (1 + ((Text.bytes source).take t.start).count 0x0A)
  /-- A literal that is not closed goes up to the first NUL, or to the last byte. -/
  unclosed : f = .unterminatedString ∨ f = .unterminatedCharacter →
    stop = ((Text.bytes source).takeWhile (· != 0)).length
  /-- If the source has numbers for its lines, the text starts on the line that is named just if
  there is no line end in it. -/
  starts : (Text.bytes source).count 0x0A < 2 ^ 32 - 1 →
    t.line.toNat = 1 + ((Text.bytes source).take stop).count 0x0A ∧
    (t.line.toNat = 1 + ((Text.bytes source).take t.start).count 0x0A ↔
      0x0A ∉ ((Text.bytes source).take stop).drop t.start)

namespace Cursor

variable {source : String} {front : List Char} {place : Cursor}

/-- What a call hands out for a fault. -/
theorem Advance.fault {skipped text : List Char} {called : Token × Cursor} {f : Fault}
    (advance : place.Advance skipped text called) (fault : called.1.kind = .fault f) :
    called.1.lexeme = f.message ∧ called.1.line = called.2.line ∧
      Lexeme.Faulty f text called.2.rest := by
  cases advance with
  | @token c cs split =>
    rw [Lexeme.kind_token] at fault
    refine ⟨?_, ?_, Lexeme.faulty_read fault⟩
    all_goals
      dsimp only [Lexeme.token]
      rw [fault]
    rfl
  | finish split => cases fault

/-- Line ends in a front part are those in a shorter front part and those behind it. -/
theorem count_take_eq_add (bytes : List UInt8) {start stop : Nat} (order : start ≤ stop) :
    (bytes.take stop).count 0x0A =
      (bytes.take start).count 0x0A + ((bytes.take stop).drop start).count 0x0A := by
  rw [← List.count_append, ← Nat.min_eq_left order, ← List.take_take, Nat.min_eq_left order,
    List.take_append_drop]

/-- The token of a fault, at a place in the source. -/
theorem Within.blames (within : place.Within source front) {f : Fault}
    (fault : place.next.1.kind = .fault f) :
    place.next.1.Blames source f place.next.2.offset := by
  obtain ⟨skipped, text, advance⟩ := place.advance_next
  have within' := within.advance advance
  obtain ⟨lexeme, same, faulty⟩ := advance.fault fault
  have start : byteLength (front ++ skipped) = place.next.1.start := by
    rw [advance.start, within.offset, Text.byteLength_append]
  have cut : source.toList =
      (front ++ skipped) ++ (text ++ (place.next.2.rest ++ behindEnd source)) := by
    rw [within'.toList, List.append_assoc (front ++ skipped)]
  have ends : ((Text.bytes source).take place.next.2.offset).count 0x0A =
      (front ++ skipped ++ text).count '\n' := by
    rw [within'.offset, count_take within'.toList]
  refine ⟨lexeme, ⟨front ++ skipped, text, place.next.2.rest, ?_, start, within'.offset.symm,
    faulty⟩, ?_, fun short => ?_, fun unclosed => ?_, fun few => ?_⟩
  · rw [← within'.whole, List.append_assoc (front ++ skipped)]
  · rw [same, within'.line, ends]
  · rw [same, within'.line, ← start, count_take cut, List.count_append,
      List.count_eq_zero_of_not_mem (faulty.inLine short), Nat.add_zero]
  · have all := within'.whole
    rw [faulty.rest_eq_nil unclosed, List.append_nil] at all
    rw [length_scanned, ← all, within'.offset]
  · have line : place.next.1.line.toNat =
        1 + ((Text.bytes source).take place.next.2.offset).count 0x0A := by
      rw [same, within'.toNat_line few, ends]
    have order : place.next.1.start ≤ place.next.2.offset := by
      rw [advance.start, advance.offset]
      omega
    refine ⟨line, ?_⟩
    rw [line, count_take_eq_add _ order, ← List.count_eq_zero]
    omega

/-- One call more, the last one first. -/
theorem after_succ (n : Nat) : ∀ place : Cursor, after (n + 1) place = (after n place).next.2 := by
  induction n with
  | zero => exact fun _ => rfl
  | succ n ih => exact fun place => ih place.next.2

/-- The tokens of faults among all tokens. -/
theorem blames_of_getElem? {n : Nat} {t : Token} {f : Fault}
    (found : (tokenize source)[n]? = some t) (fault : t.kind = .fault f) :
    t.Blames source f ((ofSource source).after (n + 1)).offset := by
  obtain rfl := readAll_getElem? found
  obtain ⟨front, within⟩ := within_after n (within_ofSource source)
  rw [after_succ]
  exact within.blames fault

end Cursor

/-! ## Errors of the parser -/

theorem Complaint.about_ne_lexical (c : Complaint) (t : Token) (f : Fault) (line : UInt32) :
    c.about t ≠ .lexical f line := by
  unfold about
  split <;> exact nofun

theorem Token.of_fault? {t : Token} {f : Fault} {line : UInt32}
    (fault : t.fault? = some (.lexical f line)) : t.kind = .fault f ∧ t.line = line := by
  unfold fault? at fault
  split at fault
  · rename_i kind
    cases fault
    exact ⟨kind, rfl⟩
  · cases fault

/-- A lexical error is the report on a fault, be it the token in sight or the one behind it. -/
theorem Position.report_eq_lexical {p : Position} {t : Token} {us : List Token} {f : Fault}
    {line : UInt32} (report : p.report t us = .lexical f line) :
    ∃ u ∈ t :: us, u.kind = .fault f ∧ u.line = line := by
  rw [Position.report] at report
  cases here : t.fault? with
  | some e =>
    rw [here] at report
    obtain rfl : e = .lexical f line := report
    exact ⟨t, List.mem_cons_self, Token.of_fault? here⟩
  | none =>
    rw [here, Option.none_or] at report
    cases behind : p.ahead? us with
    | none =>
      rw [behind] at report
      exact absurd report (Complaint.about_ne_lexical _ t f line)
    | some e =>
      rw [behind] at report
      obtain rfl : e = .lexical f line := report
      unfold ahead? at behind
      split at behind
      · obtain ⟨u, first, fault⟩ := Option.bind_eq_some_iff.1 behind
        exact ⟨u, List.mem_cons_of_mem t (List.mem_of_head? first), Token.of_fault? fault⟩
      · cases behind

/-- A lexical error of the parser is the token of a fault, with its line. -/
theorem parse_lexical {limits : ParseLimits} {arena : Arena} {source : String} {f : Fault}
    {line : UInt32} (failed : parse limits arena source = .error (.lexical f line)) :
    ∃ t ∈ tokenize source, t.kind = .fault f ∧ t.line = line := by
  cases explains_parse failed with
  | limit limit => cases limit
  | problem fails =>
    obtain ⟨ts, t, us, p, whole, -, -, report⟩ := fails
    obtain ⟨u, inside, blamed⟩ := Position.report_eq_lexical report.symm
    have token : u ∈ significant source := by
      rw [whole]
      exact List.mem_append_right ts inside
    exact ⟨u, (List.mem_filter.1 token).1, blamed⟩

/-- The token of a fault names the line that the scan has reached behind it. That is the line on
which it starts just if it has no line end in it, as a pair of quotes and a character of no token
never have. The parser passes this line on. -/
theorem fault_line_is_last (source : String) :
    (∀ (n : Nat) (t : Token) (f : Fault), (tokenize source)[n]? = some t → t.kind = .fault f →
      t.Blames source f ((Cursor.ofSource source).after (n + 1)).offset) ∧
    (∀ (limits : ParseLimits) (arena : Arena) (f : Fault) (line : UInt32),
      parse limits arena source = .error (.lexical f line) →
      ∃ (n : Nat) (t : Token), (tokenize source)[n]? = some t ∧ t.kind = .fault f ∧
        t.line = line) := by
  refine ⟨fun n t f found fault => Cursor.blames_of_getElem? found fault,
    fun limits arena f line failed => ?_⟩
  obtain ⟨t, inside, blamed⟩ := parse_lexical failed
  obtain ⟨n, found⟩ := List.mem_iff_getElem?.1 inside
  exact ⟨n, t, found, blamed⟩

/-- A character literal of three characters over two lines, a character of no token, and a string
that is open at the end: the first and the last start a line before the one that is named. -/
theorem fault_line_is_last_mixed :
    let source := "x 'a\nb' @ \"c\nd"
    ∃ t₁ t₂ t₃ : Token, tokenize source =
        [⟨.identifier, "x", 0, 1⟩, t₁, t₂, t₃, ⟨.endOfSource, "", 14, 3⟩] ∧
      t₁.Blames source .longCharacter 7 ∧ t₁.line = 2 ∧
      t₂.Blames source .unexpectedCharacter 9 ∧ t₂.line = 2 ∧
      t₃.Blames source .unterminatedString 14 ∧ t₃.line = 3 := by
  intro source
  have tokens : tokenize source = [⟨.identifier, "x", 0, 1⟩,
      ⟨.fault .longCharacter, Fault.longCharacter.message, 2, 2⟩,
      ⟨.fault .unexpectedCharacter, Fault.unexpectedCharacter.message, 8, 2⟩,
      ⟨.fault .unterminatedString, Fault.unterminatedString.message, 10, 3⟩,
      ⟨.endOfSource, "", 14, 3⟩] := by cbv
  have stops : [2, 3, 4].map (fun n => ((Cursor.ofSource source).after n).offset) = [7, 9, 14] := by
    cbv
  obtain ⟨first, second, third⟩ : _ ∧ _ ∧ _ := by simpa using stops
  have blames := (fault_line_is_last source).1
  rw [tokens] at blames
  have long := blames 1 _ _ rfl rfl
  have unexpected := blames 2 _ _ rfl rfl
  have unterminated := blames 3 _ _ rfl rfl
  rw [first] at long
  rw [second] at unexpected
  rw [third] at unterminated
  exact ⟨_, _, _, tokens, long, rfl, unexpected, rfl, unterminated, rfl⟩

/-- An open string with one line end in it starts on line 1, and line 2 is named. -/
theorem fault_line_not_first :
    tokenize "\"a\n" = [⟨.fault .unterminatedString, "unterminated string", 0, 2⟩,
      ⟨.endOfSource, "", 3, 2⟩] ∧
    1 + ((Text.bytes "\"a\n").take 0).count 0x0A = 1 ∧
    parse .standard .standard "\"a\n" = .error (.lexical .unterminatedString 2) := by
  refine ⟨?_, rfl, ?_⟩ <;> cbv

end Pseudocode
