import Mathlib
import Pseudocode.Proofs.Token.Rereading
/-!
# Tokens written one behind the other

What a lexeme is does not hang on what stands around it, as long as a blank follows. So the lexemes
of a source, written one behind the other with single blanks between them, are scanned as the same
tokens, on the same lines: line ends are lexemes, and comments have none.

* `Lexeme.reads_again`: a lexeme in front of a blank or of the end, with a lemma for each shape;
* `Cursor.readAll_spaced`: the lexemes behind a place, by induction on the calls of the scanner;
* `tokenize_spaced`: the lexemes of a source.
-/
namespace Pseudocode

/-! ## One lexeme -/

namespace Lexeme
variable {rest : List Char}

theorem reads_endOfLine (rest : List Char) : Reads .endOfLine ['\n'] rest :=
  ⟨Cursor.splitBlank_of_head (by decide), '\n', [], rfl, rfl⟩

theorem reads_word_again {c : Char} (start : isWordStart c = true) (cs : List Char)
    (stops : Stops rest) : Reads (word c cs).kind (word c cs).text rest :=
  reads_word start (fun x inside => List.all_eq_true.1 List.all_takeWhile x inside) stops

theorem reads_number_again {c : Char} (digit : c.isDigit = true) (cs : List Char)
    (stops : Stops rest) : Reads (number c cs).kind (number c cs).text rest := by
  have digits (ds : List Char) : ∀ x ∈ ds.takeWhile Char.isDigit, x.isDigit = true :=
    fun x inside => List.all_eq_true.1 List.all_takeWhile x inside
  have whole : ∀ x ∈ c :: cs.takeWhile Char.isDigit, x.isDigit = true :=
    List.forall_mem_cons.2 ⟨digit, digits cs⟩
  by_cases point : ∃ d more, cs.dropWhile Char.isDigit = '.' :: d :: more ∧ d.isDigit = true
  · obtain ⟨d, more, point, digit'⟩ := point
    rw [number_of_point point digit']
    exact reads_real whole (List.forall_mem_cons.2 ⟨digit', digits more⟩) stops
  · rw [number_of_no_point c fun d more behind digit' => point ⟨d, more, behind, digit'⟩]
    exact reads_integer whole stops

theorem reads_string_again {cs : List Char} (real : (string cs).kind.isFault = false)
    (rest : List Char) : Reads (string cs).kind (string cs).text rest := by
  unfold string at real ⊢
  split at real
  · rename_i body behind found
    exact reads_string (not_mem_of_untilQuote found) rest
  · cases real

theorem reads_character_again {cs : List Char} (real : (character cs).kind.isFault = false)
    (rest : List Char) : Reads (character cs).kind (character cs).text rest := by
  have quoted := quoted_character cs
  have kind : (character cs).kind = .character := by
    revert real
    unfold character characterKind
    split
    · split
      · nofun
      · split
        · exact fun _ => rfl
        · nofun
      · nofun
    · nofun
  rw [kind] at quoted ⊢
  obtain ⟨c, text, closed, narrow⟩ := quoted
  rw [text]
  exact reads_character closed narrow rest

theorem reads_mark_again {c : Char} {cs : List Char} (real : (mark c cs).kind.isFault = false)
    (stops : Stops rest) : Reads (mark c cs).kind (mark c cs).text rest := by
  have symbol : ∃ s : Symbol, (mark c cs).kind = .symbol s ∧ (mark c cs).text = s.text.toList := by
    unfold mark at real ⊢
    split at real <;> first | exact ⟨_, rfl, rfl⟩ | cases real
  obtain ⟨s, kind, text⟩ := symbol
  rw [kind, text]
  exact reads_symbol s stops

/-- A lexeme is read again wherever it is followed by something that it does not take in. -/
theorem reads_again {c : Char} {cs : List Char} (stops : Stops rest) :
    (read c cs).kind.isFault = false → Reads (read c cs).kind (read c cs).text rest := by
  unfold read
  split
  · rename_i start
    exact fun _ => reads_word_again start cs stops
  split
  · rename_i digit
    exact fun _ => reads_number_again digit cs stops
  split
  · exact fun _ => reads_endOfLine rest
  split
  · exact fun real => reads_string_again real rest
  split
  · exact fun real => reads_character_again real rest
  · exact fun real => reads_mark_again real stops

end Lexeme

/-! ## Tokens -/

namespace Token

/-- The lexemes of the tokens, with single blanks between them. The end of the source has none. -/
def spaced (ts : List Token) : String :=
  " ".intercalate ((ts.filter fun t => t.kind != .endOfSource).map lexeme)

/-- The kind, the text and the line of a token, wherever on the line it stands. -/
def lined (t : Token) : Kind × String × UInt32 := (t.kind, t.lexeme, t.line)

theorem spaced_of_end {t : Token} (ends : t.kind = .endOfSource) : (spaced [t]).toList = [] := by
  simp [spaced, ends]

/-- Behind the first lexeme there is nothing more, or a blank and the other lexemes. -/
theorem spaced_cons {t : Token} (more : t.kind ≠ .endOfSource) (ts : List Token) :
    ∃ tail, (spaced (t :: ts)).toList = t.lexeme.toList ++ tail ∧
      (tail = [] ∧ (spaced ts).toList = [] ∨ tail = ' ' :: (spaced ts).toList) := by
  unfold spaced
  rw [List.filter_cons_of_pos (by simpa using more)]
  cases ts.filter fun t => t.kind != .endOfSource with
  | nil => exact ⟨[], by simp, .inl ⟨rfl, by simp⟩⟩
  | cons u us => exact ⟨_, by simp, .inr rfl⟩

end Token

namespace Cursor

/-- A token that is no fault has the text that its call takes. -/
theorem Advance.lined {place : Cursor} {skipped text : List Char} {called : Token × Cursor}
    (advance : place.Advance skipped text called) (real : called.1.kind.isFault = false) :
    called.1.lined = (called.1.kind, String.ofList text, place.line) := by
  obtain ⟨lexeme, line⟩ := advance.lexeme real
  rw [Token.lined, lexeme, line]

/-- The lexeme at a place is read again wherever it stands with a blank or nothing behind it. -/
theorem Advance.next_again {place again : Cursor} {skipped text tail : List Char}
    {called : Token × Cursor} (advance : place.Advance skipped text called)
    (real : called.1.kind.isFault = false) (more : called.1.kind ≠ .endOfSource)
    (stops : Lexeme.Stops tail) (rest : again.rest = text ++ tail) :
    again.next = (⟨called.1.kind, String.ofList text, again.offset, again.line⟩,
      ⟨tail, again.offset + Text.byteLength text, again.line + lineEnds text⟩) ∧
    again.next.1.kind ≠ .endOfSource := by
  cases advance with
  | finish split => exact absurd rfl more
  | token split =>
    rw [Lexeme.kind_token] at real ⊢
    exact next_of_reads (Lexeme.reads_again stops real) real rest

/-- From a place where the lexemes behind `place` are written with single blanks between them, the
scanner hands out the same tokens, by induction on its calls. -/
theorem readAll_spaced {place again : Cursor}
    (real : ∀ t ∈ (readAll place).1, t.kind.isFault = false)
    (rest : again.rest = (Token.spaced (readAll place).1).toList)
    (line : again.line = place.line) :
    (readAll again).1.map Token.lined = (readAll place).1.map Token.lined := by
  fun_induction readAll place generalizing again with
  | case1 place ends =>
    obtain ⟨skipped, text, advance⟩ := place.advance_next
    rw [Token.spaced_of_end ends] at rest
    have ended := @next_eq_end again [] (by rw [rest]; rfl)
    have taken := advance.lined (real _ (List.mem_singleton_self _))
    rw [(advance.finished ends).1, ends, ← line] at taken
    rw [readAll_eq_end (by rw [ended]), List.map_singleton, List.map_singleton, taken, ended]
    rfl
  | case2 place more tokens last behind ih =>
    obtain ⟨skipped, text, advance⟩ := place.advance_next
    obtain ⟨here, others⟩ := List.forall_mem_cons.1 real
    obtain ⟨tail, whole, between⟩ := Token.spaced_cons more tokens
    have stops : Lexeme.Stops tail := by
      rcases between with ⟨rfl, -⟩ | rfl
      · exact Lexeme.stops_nil
      · exact Lexeme.stops_blank _
    rw [whole, (advance.lexeme here).1, String.toList_ofList] at rest
    obtain ⟨called, further⟩ := advance.next_again here more stops rest
    -- the place of the next lexeme: the blank in front of it is skipped
    obtain ⟨next, same, left, reached⟩ : ∃ next : Cursor, again.next.2.next = next.next ∧
        next.rest = (Token.spaced tokens).toList ∧ next.line = place.next.2.line := by
      rw [called, advance.line, ← line]
      rcases between with ⟨rfl, last⟩ | rfl
      · exact ⟨_, rfl, last.symm, rfl⟩
      · exact ⟨_, next_blank .., rfl, rfl⟩
    rw [behind] at ih
    rw [readAll_eq_cons further, readAll_congr same, List.map_cons, List.map_cons,
      ih others left reached, advance.lined here, called, ← line]
    rfl

end Cursor

/-! ## A source -/

/-- The lexemes of a source have no NUL. -/
theorem Token.spaced_clean {ts : List Token}
    (clean : ∀ t ∈ ts, t.kind ≠ .endOfSource → '\x00' ∉ t.lexeme.toList) :
    '\x00' ∉ (spaced ts).toList := by
  induction ts with
  | nil => simp [spaced]
  | cons t ts ih =>
    obtain ⟨first, others⟩ := List.forall_mem_cons.1 clean
    by_cases ends : t.kind = .endOfSource
    · rw [spaced, List.filter_cons_of_neg (by simp [ends])]
      exact ih others
    · obtain ⟨tail, whole, between⟩ := spaced_cons ends ts
      rw [whole, List.mem_append, not_or]
      refine ⟨first ends, ?_⟩
      rcases between with ⟨rfl, -⟩ | rfl
      · exact List.not_mem_nil
      · rw [List.mem_cons, not_or]
        exact ⟨by decide, ih others⟩

/-- The lexemes of a source without faults, with single blanks between them, are the source of the
same tokens on the same lines. -/
theorem tokenize_spaced (source : String)
    (real : ∀ t ∈ tokenize source, t.kind.isFault = false) :
    (tokenize (Token.spaced (tokenize source))).map Token.lined =
      (tokenize source).map Token.lined := by
  have clean : '\x00' ∉ (Token.spaced (tokenize source)).toList :=
    Token.spaced_clean fun t inside more => by
      obtain ⟨before, l, origin⟩ := origin_of_mem_tokenize inside (real t inside) more
      rw [origin.lexeme, String.toList_ofList]
      exact origin.clean
  have alive : ∀ c ∈ (Token.spaced (tokenize source)).toList, (c != '\x00') = true :=
    fun c inside => bne_iff_ne.2 fun same => clean (same ▸ inside)
  refine Cursor.readAll_spaced real ?_ rfl
  exact List.takeWhile_eq_self_iff.2 alive

/-- Symbols without blanks, a number in front of a point, a comment, and a string over two lines with
a comment mark in it. -/
theorem tokenize_spaced_mixed :
    let source := "X<-1. // c\n<-=\"a // \nb\"/ /IFx"
    (∀ t ∈ tokenize source, t.kind.isFault = false) ∧
    Token.spaced (tokenize source) = "X <- 1 . \n <- = \"a // \nb\" / / IFx" ∧
    (tokenize "X <- 1 . \n <- = \"a // \nb\" / / IFx").map Token.lined =
      (tokenize source).map Token.lined := by
  intro source
  have tokens : tokenize source =
      [⟨.identifier, "X", 0, 1⟩, ⟨.symbol .assign, "<-", 1, 1⟩, ⟨.integer, "1", 3, 1⟩,
        ⟨.symbol .dot, ".", 4, 1⟩, ⟨.endOfLine, "\n", 10, 1⟩, ⟨.symbol .assign, "<-", 11, 2⟩,
        ⟨.symbol .equal, "=", 13, 2⟩, ⟨.string, "\"a // \nb\"", 14, 2⟩,
        ⟨.symbol .slash, "/", 23, 3⟩, ⟨.symbol .slash, "/", 25, 3⟩, ⟨.identifier, "IFx", 26, 3⟩,
        ⟨.endOfSource, "", 29, 3⟩] := by
    dsimp only [source]; cbv
  have real : ∀ t ∈ tokenize source, t.kind.isFault = false := by
    rw [tokens]
    decide
  have spaced : Token.spaced (tokenize source) = "X <- 1 . \n <- = \"a // \nb\" / / IFx" := by
    rw [tokens]
    rfl
  have again := tokenize_spaced source real
  rw [spaced] at again
  exact ⟨real, spaced, again⟩

end Pseudocode
