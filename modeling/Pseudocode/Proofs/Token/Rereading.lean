import Pseudocode.Number.Decimal
import Pseudocode.Proofs.Token.Tiling
/-!
# Lexemes read again

A token is a piece of its source, and a text that is put together from lexemes is taken apart into
them, where each is followed by something that it does not take in: a blank, a closing parenthesis
or the end.

* `Cursor.origin_of_mem_readAll`: where in the source a token comes from;
* `Lexeme.Reads`: a text in front of a rest is taken as one lexeme, with a lemma for each shape;
* `Cursor.Scans`: a text in front of a rest is taken apart into words, with laws for one word and
  for texts one behind the other.
-/
namespace Pseudocode

/-! ## Where tokens come from -/

/-- The kind and the text of a token, wherever it stands. -/
def Token.word (t : Token) : Kind × String := (t.kind, t.lexeme)

/-- The token is the lexeme that begins behind `before` in the characters. -/
structure Token.Origin (t : Token) (offset : Nat) (chars before : List Char) (l : Lexeme) :
    Prop where
  kind : t.kind = l.kind
  lexeme : t.lexeme = String.ofList l.text
  start : t.start = offset + Text.byteLength before
  whole : chars = before ++ (l.text ++ l.rest)
  read : ∃ c cs, Lexeme.read c cs = l

/-- A token that is no fault and not the end of the source was taken out of it as a lexeme. -/
theorem Cursor.origin_of_mem_readAll {place : Cursor} {t : Token}
    (inside : t ∈ (readAll place).1) (real : t.kind.isFault = false)
    (more : t.kind ≠ .endOfSource) :
    ∃ before l, t.Origin place.offset place.rest before l := by
  have first : ∀ {place : Cursor}, place.next.1.kind.isFault = false →
      place.next.1.kind ≠ .endOfSource →
        ∃ before l, place.next.1.Origin place.offset place.rest before l := by
    intro place real more
    obtain ⟨skipped, text, advance⟩ := place.advance_next
    have whole := advance.rest
    have start := advance.start
    have lexeme := (advance.lexeme real).1
    cases called : place.next with
    | mk handed behind =>
      rw [called] at advance whole start lexeme more
      cases advance with
      | finish split => exact absurd rfl more
      | @token c cs split =>
        exact ⟨skipped, Lexeme.read c cs, Lexeme.kind_token .., lexeme, start, whole, c, cs, rfl⟩
  fun_induction readAll place with
  | case1 place ends =>
    rw [List.mem_singleton.1 inside] at more
    exact absurd ends more
  | case2 place further tokens last rest ih =>
    rcases List.mem_cons.1 inside with rfl | inside
    · exact first real more
    · rw [rest] at ih
      obtain ⟨before, l, kind, lexeme, start, whole, read⟩ := ih inside
      obtain ⟨skipped, text, advance⟩ := place.advance_next
      refine ⟨skipped ++ text ++ before, l, kind, lexeme, ?_, ?_, read⟩
      · rw [start, advance.offset, Text.byteLength_append, Text.byteLength_append]
        omega
      · rw [advance.rest, whole, List.append_assoc, List.append_assoc]

/-- What a token of a source is made of. -/
theorem origin_of_mem_tokenize {source : String} {t : Token} (inside : t ∈ tokenize source)
    (real : t.kind.isFault = false) (more : t.kind ≠ .endOfSource) :
    ∃ before l, t.Origin 0 (source.toList.takeWhile (· != '\x00')) before l :=
  Cursor.origin_of_mem_readAll inside real more

section
variable {source : String} {t : Token} {before : List Char} {l : Lexeme}

/-- A token is a range of its source. -/
theorem Token.Origin.slice?
    (origin : t.Origin 0 (source.toList.takeWhile (· != '\x00')) before l) :
    Text.slice? source t.start t.size = some t.lexeme := by
  rw [origin.lexeme, Text.slice?_eq_some_iff]
  refine ⟨before, l.rest ++ source.toList.dropWhile (· != '\x00'), ?_, ?_,
    (Token.size_of_lexeme origin.lexeme).symm⟩
  · conv => lhs; rw [← List.takeWhile_append_dropWhile (p := (· != '\x00')) (l := source.toList),
      origin.whole]
    simp only [List.append_assoc]
  · rw [origin.start, Nat.zero_add]

/-- No token has a NUL. -/
theorem Token.Origin.clean
    (origin : t.Origin 0 (source.toList.takeWhile (· != '\x00')) before l) : '\x00' ∉ l.text :=
  fun inside => clean_takeWhile source.toList (by simp [origin.whole, inside])

end

/-! ## Literals between quotes -/

/-- A string has no double quote inside its quotes, and a character literal has one byte inside. -/
def Kind.Quoted (k : Kind) (text : List Char) : Prop :=
  match k with
  | .string => ∃ body, text = '"' :: (body ++ ['"']) ∧ '"' ∉ body
  | .character => ∃ c : Char, text = ['\'', c, '\''] ∧ c ≠ '\'' ∧ c.utf8Size = 1
  | _ => True

namespace Lexeme

theorem quoted_word (c : Char) (cs : List Char) : (word c cs).kind.Quoted (word c cs).text := by
  unfold word Kind.ofWord
  dsimp only
  split <;> trivial

theorem quoted_number (c : Char) (cs : List Char) :
    (number c cs).kind.Quoted (number c cs).text := by
  unfold number
  split
  · split <;> trivial
  · trivial

theorem quoted_string (cs : List Char) : (string cs).kind.Quoted (string cs).text := by
  unfold string
  split
  · rename_i body rest found
    exact ⟨body, rfl, not_mem_of_untilQuote found⟩
  · trivial

theorem quoted_character (cs : List Char) : (character cs).kind.Quoted (character cs).text := by
  unfold character
  split
  · rename_i body rest found
    have closed := not_mem_of_untilQuote found
    match body with
    | [] => trivial
    | [c] =>
      show (characterKind [c]).Quoted _
      unfold characterKind
      dsimp only
      split
      · rename_i narrow
        exact ⟨c, rfl, fun same => closed (List.mem_singleton.2 same.symm), narrow⟩
      · trivial
    | _ :: _ :: _ => trivial
  · trivial

theorem quoted_mark (c : Char) (cs : List Char) : (mark c cs).kind.Quoted (mark c cs).text := by
  unfold mark
  split <;> trivial

theorem quoted_read (c : Char) (cs : List Char) : (read c cs).kind.Quoted (read c cs).text := by
  unfold read
  split
  · exact quoted_word c cs
  split
  · exact quoted_number c cs
  split
  · trivial
  split
  · exact quoted_string cs
  split
  · exact quoted_character cs
  · exact quoted_mark c cs

end Lexeme

/-! ## Lexemes in front of a rest -/

/-- No blank is skipped and no comment begins in front of any other character. -/
theorem Cursor.splitBlank_of_head {c : Char} {cs : List Char} (first : c ∉ [' ', '\t', '\r', '/']) :
    splitBlank (c :: cs) = ([], c :: cs) := by
  unfold splitBlank
  split <;> simp_all

/-- A text and a rest, up to where a test fails that the rest does not pass. -/
theorem takeWhile_append_stop {α : Type} {p : α → Bool} {xs rest : List α}
    (all : ∀ x ∈ xs, p x = true) (stop : ∀ x ∈ rest.head?, p x = false) :
    (xs ++ rest).takeWhile p = xs ∧ (xs ++ rest).dropWhile p = rest := by
  rw [List.takeWhile_append_of_pos all, List.dropWhile_append_of_pos all]
  cases rest with
  | nil => simp
  | cons x rest => simp [stop x rfl]

namespace Lexeme

/-- What stands behind a lexeme of any kind and is not taken into it. -/
def Stops (rest : List Char) : Prop := ∀ c ∈ rest.head?, c = ' ' ∨ c = ')'

theorem stops_nil : Stops [] := by
  rintro c ⟨⟩

theorem stops_blank (rest : List Char) : Stops (' ' :: rest) := by
  rintro c ⟨⟩
  exact .inl rfl

theorem stops_rightParen (rest : List Char) : Stops (')' :: rest) := by
  rintro c ⟨⟩
  exact .inr rfl

theorem Stops.cases {rest : List Char} (stops : Stops rest) :
    rest = [] ∨ (∃ more, rest = ' ' :: more) ∨ ∃ more, rest = ')' :: more := by
  cases rest with
  | nil => exact .inl rfl
  | cons c more =>
    rcases stops c rfl with rfl | rfl
    · exact .inr (.inl ⟨more, rfl⟩)
    · exact .inr (.inr ⟨more, rfl⟩)

/-- In front of the rest the text is taken as one lexeme of the kind. -/
structure Reads (kind : Kind) (text rest : List Char) : Prop where
  bare : Cursor.splitBlank (text ++ rest) = ([], text ++ rest)
  read : ∃ c cs, text = c :: cs ∧ Lexeme.read c (cs ++ rest) = ⟨kind, text, rest⟩

theorem Stops.fails {rest : List Char} (stops : Stops rest) {p : Char → Bool}
    (blank : p ' ' = false) (closing : p ')' = false) : ∀ c ∈ rest.head?, p c = false := by
  intro c first
  rcases stops c first with rfl | rfl
  · exact blank
  · exact closing

variable {rest : List Char}

theorem reads_word {c : Char} {cs : List Char} (start : isWordStart c = true)
    (part : ∀ x ∈ cs, isWordPart x = true) (stops : Stops rest) :
    Reads (.ofWord (String.ofList (c :: cs))) (c :: cs) rest := by
  obtain ⟨front, back⟩ := takeWhile_append_stop part (stops.fails (p := isWordPart) rfl rfl)
  refine ⟨Cursor.splitBlank_of_head ?_, c, cs, rfl, ?_⟩
  · intro inside
    simp only [List.mem_cons, List.not_mem_nil, or_false] at inside
    rcases inside with rfl | rfl | rfl | rfl <;> cases start
  · rw [read, if_pos start, word, front, back]

theorem reads_keyword (k : Keyword) (stops : Stops rest) :
    Reads (.keyword k) k.text.toList rest := by
  have letters : ∀ k ∈ Keyword.all, k.text.toList.head?.any isWordStart = true ∧
      k.text.toList.all isWordPart = true := by decide
  have word : Kind.ofWord (String.ofList k.text.toList) = .keyword k := by
    rw [String.ofList_toList, Kind.ofWord, k.ofText?_text]
  obtain ⟨start, part⟩ := letters k k.mem_all
  obtain ⟨c, first, start⟩ := (Option.any_eq_true _ _).1 start
  obtain ⟨cs, text⟩ := List.head?_eq_some_iff.1 first
  rw [text] at part word ⊢
  rw [← word]
  exact reads_word start (fun x inside => List.all_eq_true.1 part x
    (List.mem_cons_of_mem _ inside)) stops

theorem isWordStart_of_isDigit {c : Char} (digit : c.isDigit = true) : isWordStart c = false := by
  have other : c ≠ '_' := by
    rintro rfl
    cases digit
  rw [isWordStart, beq_false_of_ne other, Bool.or_false]
  unfold Char.isAlpha Char.isUpper Char.isLower
  unfold Char.isDigit at digit
  simp only [Bool.and_eq_true, Bool.or_eq_false_iff, Bool.and_eq_false_iff, decide_eq_true_eq,
    decide_eq_false_iff_not, ge_iff_le, UInt32.le_iff_toNat_le] at *
  have nine : '9'.val.toNat < 'A'.val.toNat ∧ '9'.val.toNat < 'a'.val.toNat := by decide
  omega

theorem reads_integer {c : Char} {cs : List Char} (digits : ∀ x ∈ c :: cs, x.isDigit = true)
    (stops : Stops rest) : Reads .integer (c :: cs) rest := by
  obtain ⟨first, others⟩ := List.forall_mem_cons.1 digits
  obtain ⟨front, back⟩ := takeWhile_append_stop others (stops.fails (p := Char.isDigit) rfl rfl)
  refine ⟨Cursor.splitBlank_of_head ?_, c, cs, rfl, ?_⟩
  · intro inside
    simp only [List.mem_cons, List.not_mem_nil, or_false] at inside
    rcases inside with rfl | rfl | rfl | rfl <;> cases first
  · rw [read, isWordStart_of_isDigit first, if_neg Bool.false_ne_true, if_pos first,
      number_of_no_point c, front, back]
    intro d more point
    rw [back] at point
    rcases stops '.' (by rw [point]; rfl) with same | same <;> cases same

theorem reads_real {c d : Char} {cs ds : List Char} (whole : ∀ x ∈ c :: cs, x.isDigit = true)
    (fraction : ∀ x ∈ d :: ds, x.isDigit = true) (stops : Stops rest) :
    Reads .real (c :: cs ++ '.' :: d :: ds) rest := by
  obtain ⟨first, others⟩ := List.forall_mem_cons.1 whole
  obtain ⟨digit, others'⟩ := List.forall_mem_cons.1 fraction
  obtain ⟨front, back⟩ := @takeWhile_append_stop _ Char.isDigit cs ('.' :: d :: (ds ++ rest)) others
    (by rintro x ⟨⟩; rfl)
  obtain ⟨front', back'⟩ := takeWhile_append_stop others' (stops.fails (p := Char.isDigit) rfl rfl)
  refine ⟨Cursor.splitBlank_of_head ?_, c, cs ++ '.' :: d :: ds, rfl, ?_⟩
  · intro inside
    simp only [List.mem_cons, List.not_mem_nil, or_false] at inside
    rcases inside with rfl | rfl | rfl | rfl <;> cases first
  · rw [read, isWordStart_of_isDigit first, if_neg Bool.false_ne_true, if_pos first,
      List.append_assoc, List.cons_append, List.cons_append, number_of_point back digit, front,
      front', back']

theorem untilQuote_append_cons {q : Char} {body : List Char} (closed : q ∉ body)
    (rest : List Char) : untilQuote q (body ++ q :: rest) = some (body, rest) := by
  have other : ∀ x ∈ body, (x != q) = true := fun x inside =>
    bne_iff_ne.2 fun same => closed (same ▸ inside)
  obtain ⟨front, back⟩ := @takeWhile_append_stop _ (· != q) body (q :: rest) other
    (by rintro x ⟨⟩; simp)
  rw [untilQuote, back, front]

theorem reads_string {body : List Char} (closed : '"' ∉ body) (rest : List Char) :
    Reads .string ('"' :: (body ++ ['"'])) rest := by
  refine ⟨Cursor.splitBlank_of_head (by decide), '"', body ++ ['"'], rfl, ?_⟩
  rw [List.append_assoc, List.singleton_append]
  show string (body ++ '"' :: rest) = _
  rw [string, untilQuote_append_cons closed]

theorem reads_character {c : Char} (closed : c ≠ '\'') (narrow : c.utf8Size = 1)
    (rest : List Char) : Reads .character ['\'', c, '\''] rest := by
  refine ⟨Cursor.splitBlank_of_head (by decide), '\'', [c, '\''], rfl, ?_⟩
  show character ([c] ++ '\'' :: rest) = _
  rw [character, untilQuote_append_cons (by simpa using closed.symm)]
  show (⟨characterKind [c], _, rest⟩ : Lexeme) = _
  rw [show characterKind [c] = .character from if_pos narrow]
  rfl

/-- A symbol does not grow into a longer one, and a slash does not begin a comment. -/
theorem reads_symbol (s : Symbol) (stops : Stops rest) :
    Reads (.symbol s) s.text.toList rest := by
  rcases stops.cases with rfl | ⟨more, rfl⟩ | ⟨more, rfl⟩ <;> cases s <;>
    exact ⟨rfl, _, _, rfl, rfl⟩

theorem reads_leftParen (rest : List Char) : Reads (.symbol .leftParen) ['('] rest :=
  ⟨Cursor.splitBlank_of_head (by decide), '(', [], rfl, rfl⟩

theorem reads_rightParen (rest : List Char) : Reads (.symbol .rightParen) [')'] rest :=
  ⟨Cursor.splitBlank_of_head (by decide), ')', [], rfl, rfl⟩

end Lexeme

/-! ## Texts taken apart -/

namespace Cursor

/-- In front of the rest the text is taken apart into the words, wherever it stands, and the scan
goes on with the rest. -/
def Scans (text : List Char) (words : List (Kind × String)) (rest : List Char) : Prop :=
  ∀ place : Cursor, place.rest = text ++ rest → ∃ ts behind, behind.rest = rest ∧
    ts.map Token.word = words ∧ (readAll place).1 = ts ++ (readAll behind).1

theorem readAll_eq_cons {place : Cursor} (more : place.next.1.kind ≠ .endOfSource) :
    (readAll place).1 = place.next.1 :: (readAll place.next.2).1 := by
  rw [readAll, dif_neg more]

theorem readAll_eq_end {place : Cursor} (ends : place.next.1.kind = .endOfSource) :
    (readAll place).1 = [place.next.1] := by
  rw [readAll, dif_pos ends]

/-- What is handed out depends on a place only by the next call. -/
theorem readAll_congr {a b : Cursor} (same : a.next = b.next) : readAll a = readAll b := by
  conv => lhs; rw [readAll]
  conv => rhs; rw [readAll]
  rw [same]

/-- The call that takes the text of a lexeme. -/
theorem next_of_reads {kind : Kind} {text rest : List Char} (reads : Lexeme.Reads kind text rest)
    (real : kind.isFault = false) {place : Cursor} (here : place.rest = text ++ rest) :
    place.next = (⟨kind, String.ofList text, place.offset, place.line⟩,
      ⟨rest, place.offset + Text.byteLength text, place.line + lineEnds text⟩) ∧
    place.next.1.kind ≠ .endOfSource := by
  obtain ⟨split, c, cs, rfl, read⟩ := reads
  rw [← here] at split
  have called := @next_eq_token place [] (cs ++ rest) c (split.trans (by rw [here]; rfl))
  have more := Lexeme.read_kind_ne_endOfSource c (cs ++ rest)
  rw [read] at more
  rw [read, Lexeme.token_of_real (by exact real)] at called
  rw [called]
  exact ⟨rfl, more⟩

theorem scans_of_reads {kind : Kind} {text rest : List Char} (reads : Lexeme.Reads kind text rest)
    (real : kind.isFault = false) : Scans text [(kind, String.ofList text)] rest := by
  intro place here
  obtain ⟨called, more⟩ := next_of_reads reads real here
  refine ⟨[place.next.1], place.next.2, ?_, ?_, readAll_eq_cons more⟩
  · rw [called]
  · rw [called]
    rfl

theorem Scans.append {xs ys rest : List Char} {vs ws : List (Kind × String)}
    (first : Scans xs vs (ys ++ rest)) (second : Scans ys ws rest) :
    Scans (xs ++ ys) (vs ++ ws) rest := by
  intro place here
  obtain ⟨ts, middle, between, words, read⟩ := first place (by rw [here, List.append_assoc])
  obtain ⟨us, behind, after, words', read'⟩ := second middle between
  refine ⟨ts ++ us, behind, after, ?_, ?_⟩
  · rw [List.map_append, words, words']
  · rw [read, read', List.append_assoc]

/-- A blank in front is skipped. -/
theorem next_blank (cs : List Char) (offset : Nat) (line : UInt32) :
    next ⟨' ' :: cs, offset, line⟩ = next ⟨cs, offset + 1, line⟩ := by
  rcases split : splitBlank cs with ⟨skipped, left⟩
  have split' : splitBlank (' ' :: cs) = (' ' :: skipped, left) := by
    rw [splitBlank, split]
  have width : offset + Text.byteLength (' ' :: skipped) =
      offset + 1 + Text.byteLength skipped := by
    rw [Text.byteLength_cons]
    show offset + (1 + _) = _
    omega
  cases left with
  | nil =>
    rw [next_eq_end split', next_eq_end split, width]
  | cons c cs =>
    rw [next_eq_token split', next_eq_token split, width]

theorem Scans.blank {text rest : List Char} {words : List (Kind × String)}
    (scans : Scans text words rest) : Scans (' ' :: text) words rest := by
  intro place here
  obtain ⟨chars, offset, line⟩ := place
  obtain rfl : chars = ' ' :: (text ++ rest) := here
  obtain ⟨ts, behind, after, words, read⟩ := scans ⟨text ++ rest, offset + 1, line⟩ rfl
  exact ⟨ts, behind, after, words, by rw [readAll_congr (next_blank ..), read]⟩

/-- A text that is taken apart to its end. -/
theorem Scans.tokenize {text : List Char} {words : List (Kind × String)}
    (scans : Scans text words []) (clean : '\x00' ∉ text) :
    ∃ ts last, Pseudocode.tokenize (String.ofList text) = ts ++ [last] ∧ last.kind = .endOfSource ∧
      ts.map Token.word = words := by
  have other : ∀ c ∈ text, (c != '\x00') = true := fun c inside =>
    bne_iff_ne.2 fun same => clean (same ▸ inside)
  have alive := (@takeWhile_append_stop _ _ text [] other nofun).1
  rw [List.append_nil] at alive
  obtain ⟨ts, behind, after, words, read⟩ := scans (ofSource (String.ofList text))
    (by rw [ofSource, String.toList_ofList, alive, List.append_nil])
  have ended := @next_eq_end behind [] (by rw [after]; rfl)
  have ends : behind.next.1.kind = .endOfSource := by rw [ended]
  exact ⟨ts, behind.next.1, read.trans (by rw [readAll_eq_end ends]), ends, words⟩

end Cursor

end Pseudocode
