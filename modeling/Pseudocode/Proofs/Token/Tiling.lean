import Pseudocode.Proofs.Token.ByteLexeme
import Pseudocode.Proofs.Token.Scanning
/-!
# Tokens tile the source

A call of the scanner skips blanks and at most one comment, and takes a lexeme. So the places where
its calls end go forward through the source from character to character, until the end of the source
is handed out, where they stay. A source that has numbers for all its lines is scanned without
failure, and a line number is always the number of line ends before.

* `Cursor.Within`: a place in a source, with what is before it and the lines counted there;
* `Cursor.Within.advance`: what one call does to it;
* `Cursor.within_after`: where any number of calls leads, by induction;
* `tokens_tile_source`: what the calls hand out.
-/
namespace Pseudocode

open Text (byteLength encode)

theorem Token.size_of_lexeme {t : Token} {text : List Char} (lexeme : t.lexeme = .ofList text) :
    t.size = byteLength text := by
  rw [Token.size, lexeme, ← Text.length_encode]
  change (Text.bytes (String.ofList text)).length = _
  rw [Text.bytes_eq_encode, String.toList_ofList]

/-- What is scanned ends at a NUL. -/
theorem clean_takeWhile (cs : List Char) : '\x00' ∉ cs.takeWhile (· != '\x00') := fun inside =>
  absurd (List.all_eq_true.1 List.all_takeWhile _ inside) (by decide)

/-- The bytes in front of the first NUL are those of what is scanned. -/
theorem bytes_scanned (source : String) :
    (Text.bytes source).takeWhile (· != 0) =
      encode (source.toList.takeWhile (· != '\x00')) := by
  rw [Text.bytes_eq_encode, Text.Bytewise.nul.takeWhile]

/-- What is scanned ends at the first NUL byte. -/
theorem length_scanned (source : String) :
    ((Text.bytes source).takeWhile (· != 0)).length =
      byteLength (source.toList.takeWhile (· != '\x00')) := by
  rw [bytes_scanned, Text.length_encode]

/-! ## What is skipped -/

namespace Cursor

/-- A comment of a line, or nothing. -/
def IsComment (text : List Char) : Prop :=
  text = [] ∨ ∃ body, text = '/' :: '/' :: body ∧ '\n' ∉ body

/-- Blanks are skipped, and a comment up to the end of its line. -/
theorem splitBlank_eq (cs : List Char) : ∃ blanks comment,
    (splitBlank cs).1 = blanks ++ comment ∧ (∀ c ∈ blanks, c = ' ' ∨ c = '\t' ∨ c = '\r') ∧
    IsComment comment ∧
    (comment = [] ∨ ∀ c ∈ (splitBlank cs).2.head?, c = '\n') := by
  fun_induction splitBlank cs with
  | case1 cs skipped rest parts ih | case2 cs skipped rest parts ih
  | case3 cs skipped rest parts ih =>
    obtain ⟨blanks, comment, whole, blank, comments, stop⟩ := ih
    rw [parts] at whole stop
    exact ⟨_ :: blanks, comment, congrArg _ whole, List.forall_mem_cons.2 ⟨by decide, blank⟩,
      comments, stop⟩
  | case4 cs =>
    refine ⟨[], '/' :: '/' :: cs.takeWhile (· != '\n'), rfl, List.forall_mem_nil _,
      .inr ⟨_, rfl, fun inside => ?_⟩, .inr fun c first => ?_⟩
    · exact absurd (List.all_eq_true.1 List.all_takeWhile _ inside) (by decide)
    · have stop := List.head?_dropWhile_not (· != '\n') cs
      rw [Option.mem_def.1 first] at stop
      simpa using stop
  | case5 cs => exact ⟨[], [], rfl, List.forall_mem_nil _, .inl rfl, .inl rfl⟩

theorem newline_not_mem_splitBlank (cs : List Char) : '\n' ∉ (splitBlank cs).1 := by
  obtain ⟨blanks, comment, whole, blank, comments, -⟩ := splitBlank_eq cs
  rw [whole, List.mem_append, not_or]
  refine ⟨fun inside => absurd (blank _ inside) (by decide), fun inside => ?_⟩
  obtain rfl | ⟨body, rfl, inLine⟩ := comments
  · exact List.not_mem_nil inside
  · simp [inLine] at inside

/-! ## Places in a source -/

/-- The place lies in the source behind `front`, and its line counts the line ends there. -/
structure Within (source : String) (front : List Char) (place : Cursor) : Prop where
  whole : front ++ place.rest = source.toList.takeWhile (· != '\x00')
  offset : place.offset = byteLength front
  line : place.line = UInt32.ofNat (1 + front.count '\n')

/-- What is behind the end of the source. -/
def behindEnd (source : String) : List Char := source.toList.dropWhile (· != '\x00')

theorem ended_behindEnd (source : String) : Ended (behindEnd source) := by
  intro c first
  have stop := List.head?_dropWhile_not (· != '\x00') source.toList
  rw [show source.toList.dropWhile (· != '\x00') = behindEnd source from rfl,
    Option.mem_def.1 first] at stop
  simpa using stop

theorem within_ofSource (source : String) : (ofSource source).Within source [] :=
  ⟨rfl, rfl, rfl⟩

section
variable {source : String} {front : List Char} {place : Cursor}

theorem Within.toList (within : place.Within source front) :
    source.toList = front ++ (place.rest ++ behindEnd source) := by
  rw [← List.append_assoc, within.whole, behindEnd, List.takeWhile_append_dropWhile]

theorem Within.clean (within : place.Within source front) : '\x00' ∉ place.rest := fun inside =>
  clean_takeWhile source.toList (within.whole ▸ List.mem_append_right _ inside)

theorem count_newline (source : String) :
    (Text.bytes source).count 0x0A = source.toList.count '\n' := by
  rw [Text.bytes_eq_encode]
  exact Text.count_encode (d := '\n') (by decide) _

/-- The line ends in front of a place between two characters. -/
theorem count_take {source : String} {front back : List Char}
    (whole : source.toList = front ++ back) :
    ((Text.bytes source).take (byteLength front)).count 0x0A = front.count '\n' := by
  have cut : (Text.bytes source).take (byteLength front) = encode front := by
    rw [Text.bytes_eq_encode, whole, Text.encode_append, ← Text.length_encode, List.take_left]
  rw [cut]
  exact Text.count_encode (d := '\n') (by decide) front

theorem Within.count_le (within : place.Within source front) :
    front.count '\n' + place.rest.count '\n' ≤ (Text.bytes source).count 0x0A := by
  rw [count_newline, within.toList, List.count_append, List.count_append]
  omega

/-- In a source that has numbers for its lines the count is exact. -/
theorem Within.toNat_line (within : place.Within source front)
    (few : (Text.bytes source).count 0x0A < 2 ^ 32 - 1) :
    place.line.toNat = 1 + front.count '\n' := by
  have := within.count_le
  rw [within.line, UInt32.toNat_ofNat']
  omega

theorem Within.fits (within : place.Within source front)
    (few : (Text.bytes source).count 0x0A < 2 ^ 32 - 1) :
    place.line.toNat + place.rest.count '\n' < 2 ^ 32 := by
  have := within.count_le
  have := within.toNat_line few
  omega

/-- What one call makes of a place in the source: `skipped` is passed, and `text` is taken. -/
inductive Advance (place : Cursor) (skipped : List Char) : List Char → Token × Cursor → Prop
  | token {c : Char} {cs : List Char} (split : splitBlank place.rest = (skipped, c :: cs)) :
    Advance place skipped (Lexeme.read c cs).text
      ((Lexeme.read c cs).token (place.offset + byteLength skipped) place.line,
        (Lexeme.read c cs).behind (place.offset + byteLength skipped) place.line)
  | finish (split : splitBlank place.rest = (skipped, [])) :
    Advance place skipped []
      (⟨.endOfSource, "", place.offset + byteLength skipped, place.line⟩,
        ⟨[], place.offset + byteLength skipped, place.line⟩)

theorem advance_next (place : Cursor) : ∃ skipped text, place.Advance skipped text place.next := by
  rcases split : splitBlank place.rest with ⟨skipped, left⟩
  cases left with
  | nil =>
    rw [next_eq_end split]
    exact ⟨skipped, _, .finish split⟩
  | cons c cs =>
    rw [next_eq_token split]
    exact ⟨skipped, _, .token split⟩

section
variable {skipped text : List Char} {called : Token × Cursor}

theorem Advance.rest (advance : place.Advance skipped text called) :
    place.rest = skipped ++ (text ++ called.2.rest) := by
  have parts := splitBlank_append place.rest
  cases advance with
  | token split =>
    rw [split] at parts
    rw [← parts]
    exact congrArg _ (Lexeme.read_append _ _).symm
  | finish split =>
    rw [split] at parts
    exact parts.symm

theorem Advance.inLine (advance : place.Advance skipped text called) : '\n' ∉ skipped := by
  have inLine := newline_not_mem_splitBlank place.rest
  cases advance with
  | token split | finish split => rwa [split] at inLine

theorem Advance.offset (advance : place.Advance skipped text called) :
    called.2.offset = place.offset + byteLength skipped + byteLength text := by
  cases advance <;> rfl

theorem Advance.line (advance : place.Advance skipped text called) :
    called.2.line = place.line + lineEnds text := by
  cases advance with
  | token split => rfl
  | finish split => exact Lexeme.line_eq List.not_mem_nil

/-- A call leads from a place in the source to a place in the source. -/
theorem Within.advance (within : place.Within source front)
    (advance : place.Advance skipped text called) :
    called.2.Within source (front ++ skipped ++ text) := by
  refine ⟨?_, ?_, ?_⟩
  · rw [← within.whole, advance.rest, List.append_assoc, List.append_assoc]
  · rw [advance.offset, within.offset, Text.byteLength_append, Text.byteLength_append]
  · rw [advance.line, within.line, lineEnds, ← UInt32.ofNat_add, List.count_append,
      List.count_append, List.count_eq_zero_of_not_mem advance.inLine, Nat.add_zero,
      Nat.add_assoc]

theorem Advance.start (advance : place.Advance skipped text called) :
    called.1.start = place.offset + byteLength skipped := by
  cases advance with
  | token split => exact Lexeme.start_token ..
  | finish split => rfl

/-- The text that is taken is the text of the token. -/
theorem Advance.lexeme (advance : place.Advance skipped text called)
    (real : called.1.kind.isFault = false) :
    called.1.lexeme = String.ofList text ∧ called.1.line = place.line := by
  cases advance with
  | token split =>
    rw [Lexeme.kind_token] at real
    rw [Lexeme.token_of_real real]
    exact ⟨rfl, rfl⟩
  | finish split => exact ⟨rfl, rfl⟩

theorem Advance.size (advance : place.Advance skipped text called)
    (real : called.1.kind.isFault = false) : called.1.size = byteLength text :=
  Token.size_of_lexeme (advance.lexeme real).1

theorem Advance.moves (advance : place.Advance skipped text called)
    (more : called.1.kind ≠ .endOfSource) : 0 < byteLength text := by
  cases advance with
  | finish split => exact absurd rfl more
  | @token c cs split =>
    obtain ⟨d, ds, shape⟩ := List.exists_cons_of_ne_nil (Lexeme.read_text_ne_nil c cs)
    rw [shape, Text.byteLength_cons]
    exact Nat.add_pos_left d.utf8Size_pos _

/-- The end of the source is handed out where nothing is left. -/
theorem Advance.finished (advance : place.Advance skipped text called)
    (ends : called.1.kind = .endOfSource) : text = [] ∧ called.2.rest = [] := by
  cases advance with
  | token split =>
    rw [Lexeme.kind_token] at ends
    exact absurd ends (Lexeme.read_kind_ne_endOfSource _ _)
  | finish split => exact ⟨rfl, rfl⟩

/-- Behind a comment the line or the source ends. -/
theorem Advance.gap (advance : place.Advance skipped text called) : ∃ blanks comment,
    skipped = blanks ++ comment ∧ (∀ c ∈ blanks, c = ' ' ∨ c = '\t' ∨ c = '\r') ∧
    IsComment comment ∧
    (comment = [] ∨ called.1.kind = .endOfLine ∨ called.1.kind = .endOfSource) := by
  obtain ⟨blanks, comment, whole, blank, comments, stop⟩ := splitBlank_eq place.rest
  cases advance with
  | token split =>
    rw [split] at whole stop
    refine ⟨blanks, comment, whole, blank, comments, stop.imp_right fun first => .inl ?_⟩
    rw [Lexeme.kind_token, first _ rfl]
    rfl
  | finish split =>
    rw [split] at whole
    exact ⟨blanks, comment, whole, blank, comments, .inr (.inr rfl)⟩

end

end

/-! ## Runs of calls -/

/-- The place after `n` calls. -/
def after : Nat → Cursor → Cursor
  | 0, place => place
  | n + 1, place => after n place.next.2

theorem within_after {source : String} (n : Nat) : ∀ {place front}, place.Within source front →
    ∃ front', (after n place).Within source front' := by
  induction n with
  | zero => exact fun within => ⟨_, within⟩
  | succ n ih =>
    intro place front within
    obtain ⟨skipped, text, advance⟩ := place.advance_next
    exact ih (within.advance advance)

/-- What a call hands out, at a place in the source. -/
structure Tiles (source : String) (place : Cursor) (t : Token) (behind : Cursor) : Prop where
  /-- The call ends between two characters, or at an end of the source. -/
  boundary : (Text.dropBytes? behind.offset source.toList).isSome
  moves : t.kind ≠ .endOfSource → place.offset < behind.offset
  /-- Blanks and a comment are skipped. A comment stops before the end of its line. -/
  gap : place.offset ≤ t.start ∧ ∃ blanks comment,
    Text.slice? source place.offset (t.start - place.offset) =
      some (String.ofList (blanks ++ comment)) ∧
    (∀ c ∈ blanks, c = ' ' ∨ c = '\t' ∨ c = '\r') ∧ IsComment comment ∧
    (comment = [] ∨ t.kind = .endOfLine ∨ t.kind = .endOfSource)
  lexeme : t.kind.isFault = false →
    Text.slice? source t.start t.size = some t.lexeme ∧ t.start + t.size = behind.offset
  line : t.kind.isFault = false →
    t.line.toNat = 1 + ((Text.bytes source).take t.start).count 0x0A
  /-- The end is at the first NUL, or behind the last byte. -/
  finish : t.kind = .endOfSource → t.start = ((Text.bytes source).takeWhile (· != 0)).length

theorem Within.next?_inBytes {source : String} {front : List Char} {place : Cursor}
    (within : place.Within source front) (few : (Text.bytes source).count 0x0A < 2 ^ 32 - 1) :
    (place.inBytes (behindEnd source)).next? source =
      some (place.next.1, place.next.2.inBytes (behindEnd source)) :=
  ByteCursor.next?_inBytes within.toList within.offset (ended_behindEnd source) within.clean
    (within.fits few)

theorem Within.tiles {source : String} {front : List Char} {place : Cursor}
    (within : place.Within source front) (few : (Text.bytes source).count 0x0A < 2 ^ 32 - 1) :
    place.Tiles source place.next.1 place.next.2 := by
  obtain ⟨skipped, text, advance⟩ := place.advance_next
  have within' := within.advance advance
  have whole := within'.toList
  have cut : source.toList =
      (front ++ skipped) ++ (text ++ (place.next.2.rest ++ behindEnd source)) := by
    rw [whole, List.append_assoc (front ++ skipped)]
  have start : place.next.1.start = byteLength (front ++ skipped) := by
    rw [advance.start, within.offset, Text.byteLength_append]
  refine ⟨?_, fun more => ?_, ⟨?_, ?_⟩, fun real => ⟨?_, ?_⟩, fun real => ?_, fun ends => ?_⟩
  · rw [whole, within'.offset, Text.dropBytes?_append]
    rfl
  · have := advance.moves more
    rw [advance.offset]
    omega
  · rw [advance.start]
    omega
  · obtain ⟨blanks, comment, parts, gap⟩ := advance.gap
    refine ⟨blanks, comment, ?_, gap⟩
    rw [← parts, advance.start, Nat.add_sub_cancel_left, within.offset,
      ← String.ofList_toList (s := source), cut, List.append_assoc, Text.slice?_append]
  · rw [start, advance.size real, (advance.lexeme real).1, ← String.ofList_toList (s := source),
      cut, Text.slice?_append]
  · rw [advance.start, advance.size real, advance.offset]
  · rw [(advance.lexeme real).2, within.toNat_line few, start, count_take cut, List.count_append,
      List.count_eq_zero_of_not_mem advance.inLine, Nat.add_zero]
  · obtain ⟨rfl, nothing⟩ := advance.finished ends
    have all := within'.whole
    rw [nothing, List.append_nil, List.append_nil] at all
    rw [start, all, length_scanned]

end Cursor

/-- The place of the bytes after `n` calls, if none fails. -/
def ByteCursor.after? (source : String) : Nat → ByteCursor → Option ByteCursor
  | 0, p => some p
  | n + 1, p => (p.next? source).bind fun (_, q) => after? source n q

theorem ByteCursor.after?_inBytes {source : String}
    (few : (Text.bytes source).count 0x0A < 2 ^ 32 - 1) (n : Nat) :
    ∀ {place : Cursor} {front : List Char}, place.Within source front →
      after? source n (place.inBytes (Cursor.behindEnd source)) =
        some ((place.after n).inBytes (Cursor.behindEnd source)) := by
  induction n with
  | zero => exact fun _ => rfl
  | succ n ih =>
    intro place front within
    obtain ⟨skipped, text, advance⟩ := place.advance_next
    rw [after?, within.next?_inBytes few]
    exact ih (within.advance advance)

/-! ## All tokens -/

namespace Cursor

theorem readAll_getElem? {place : Cursor} {n : Nat} {t : Token}
    (found : (readAll place).1[n]? = some t) : t = (after n place).next.1 := by
  fun_induction readAll place generalizing n with
  | case1 place ends =>
    cases n with
    | zero => exact (Option.some.inj found).symm
    | succ n => cases found
  | case2 place more tokens last rest ih =>
    rw [rest] at ih
    cases n with
    | zero => exact (Option.some.inj found).symm
    | succ n => exact ih found

theorem length_readAll_le (place : Cursor) : (readAll place).1.length ≤ place.rest.length + 1 := by
  fun_induction readAll place with
  | case1 place ends => exact Nat.le_add_left 1 _
  | case2 place more tokens last rest ih =>
    rw [rest] at ih
    exact Nat.succ_le_succ (Nat.le_trans ih (next_length_lt place more))

end Cursor

theorem length_tokenize_le (source : String) :
    (tokenize source).length ≤ (Text.bytes source).length + 1 := by
  have few := (Cursor.ofSource source).length_readAll_le
  have front : (Cursor.ofSource source).rest.length ≤ source.toList.length :=
    (List.takeWhile_sublist _).length_le
  have bytes : source.toList.length ≤ (Text.bytes source).length := by
    rw [Text.bytes_eq_encode, Text.length_encode]
    exact Text.length_le_byteLength _
  exact Nat.le_trans few (by omega)

/-- Scanning a source that has numbers for its lines never fails, and its tokens tile it. -/
theorem tokens_tile_source (source : String)
    (few : (Text.bytes source).count 0x0A < 2 ^ 32 - 1) :
    (∀ n, let place := (Cursor.ofSource source).after n
      let behind := Cursor.behindEnd source
      (ByteCursor.ofSource source).after? source n = some (place.inBytes behind) ∧
      (place.inBytes behind).next? source = some (place.next.1, place.next.2.inBytes behind) ∧
      place.Tiles source place.next.1 place.next.2) ∧
    (∀ n t, (tokenize source)[n]? = some t → t = ((Cursor.ofSource source).after n).next.1) ∧
    (∃ ts last, tokenize source = ts ++ [last] ∧ last.kind = .endOfSource ∧
      ∀ t ∈ ts, t.kind ≠ .endOfSource) ∧
    (tokenize source).length ≤ (Text.bytes source).length + 1 := by
  have start := Cursor.within_ofSource source
  have bytes : ByteCursor.ofSource source =
      (Cursor.ofSource source).inBytes (Cursor.behindEnd source) := by
    rw [Cursor.inBytes, Cursor.ofSource, Cursor.behindEnd, List.takeWhile_append_dropWhile,
      ← Text.bytes_eq_encode]
    rfl
  refine ⟨fun n => ?_, fun n t found => Cursor.readAll_getElem? found, tokenize_eq source,
    length_tokenize_le source⟩
  obtain ⟨front, within⟩ := Cursor.within_after n start
  exact ⟨bytes ▸ ByteCursor.after?_inBytes few n start, within.next?_inBytes few,
    within.tiles few⟩

/-- A character of two bytes, a string of two lines, a comment, and a NUL before the last word. -/
theorem tokens_tile_source_mixed :
    let source := "é \"a\nb\" // c\n1\x00d"
    (Text.bytes source).count 0x0A < 2 ^ 32 - 1 ∧
    (∀ n, let place := (Cursor.ofSource source).after n
      place.Tiles source place.next.1 place.next.2 ∧
      (place.next.1.kind = .endOfSource → place.next.1.start = 15)) ∧
    (tokenize source).length ≤ 18 := by
  intro source
  have few : (Text.bytes source).count 0x0A < 2 ^ 32 - 1 := by decide
  have tiled := tokens_tile_source source few
  refine ⟨few, fun n => ⟨(tiled.1 n).2.2, fun ends => ?_⟩, tiled.2.2.2⟩
  exact ((tiled.1 n).2.2.finish ends).trans (by decide)

end Pseudocode
