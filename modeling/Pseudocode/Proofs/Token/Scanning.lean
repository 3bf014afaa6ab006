import Pseudocode.Token.Scanner
/-!
# What the scanner hands out

The end of the source is the last token and no other. A real literal is digits, a point and digits,
and a character literal is one character between single quotes.

* `tokenize_eq`: where the end of the source stands;
* `shapes_of_mem_tokenize`: how the texts of literals look.
-/
namespace Pseudocode

/-- How the text of a literal looks, as far as the parser takes it apart. -/
def Kind.Shapes (k : Kind) (text : List Char) : Prop :=
  match k with
  | .real => ∃ whole fraction, text = whole ++ '.' :: fraction ∧
      ∀ c ∈ whole ++ fraction, c.isDigit = true
  | .character => ∃ c, text = ['\'', c, '\'']
  | _ => True

namespace Lexeme

/-! ## What is never a fault, and what is between quotes -/

theorem isFault_word (c : Char) (cs : List Char) : (word c cs).kind.isFault = false := by
  unfold word Kind.ofWord
  dsimp only
  split <;> rfl

theorem isFault_number (c : Char) (cs : List Char) : (number c cs).kind.isFault = false := by
  unfold number
  split
  · split <;> rfl
  · rfl

theorem not_mem_of_untilQuote {q : Char} {cs body rest : List Char}
    (found : untilQuote q cs = some (body, rest)) : q ∉ body := by
  unfold untilQuote at found
  split at found
  · cases found
  · cases found
    intro inside
    have other := List.all_eq_true.1 List.all_takeWhile q inside
    simp at other

theorem not_mem_of_untilQuote_eq_none {q : Char} {cs : List Char}
    (missed : untilQuote q cs = none) : q ∉ cs := by
  unfold untilQuote at missed
  split at missed
  · rename_i passed
    have whole := List.takeWhile_append_dropWhile (p := (· != q)) (l := cs)
    rw [passed, List.append_nil] at whole
    rw [← whole]
    intro inside
    have other := List.all_eq_true.1 List.all_takeWhile q inside
    simp at other
  · cases missed

/-! ## Shapes -/

theorem shapes_word (c : Char) (cs : List Char) : (word c cs).kind.Shapes (word c cs).text := by
  unfold word Kind.ofWord
  dsimp only
  split <;> trivial

theorem shapes_number {c : Char} (digit : c.isDigit = true) (cs : List Char) :
    (number c cs).kind.Shapes (number c cs).text := by
  unfold number
  split
  · rename_i d rest behind
    split
    · rename_i digit'
      refine ⟨_, _, rfl, fun x inside => ?_⟩
      rw [List.mem_append, List.mem_cons, List.mem_cons] at inside
      rcases inside with (rfl | front) | rfl | back
      · exact digit
      · exact List.all_eq_true.1 List.all_takeWhile x front
      · exact digit'
      · exact List.all_eq_true.1 List.all_takeWhile x back
    · trivial
  · trivial

theorem shapes_string (cs : List Char) : (string cs).kind.Shapes (string cs).text := by
  unfold string
  split <;> trivial

theorem shapes_character (cs : List Char) : (character cs).kind.Shapes (character cs).text := by
  unfold character
  split
  · rename_i body rest found
    match body with
    | [] => trivial
    | [c] =>
      show (characterKind [c]).Shapes _
      unfold characterKind
      dsimp only
      split
      · exact ⟨c, rfl⟩
      · trivial
    | _ :: _ :: _ => trivial
  · trivial

theorem shapes_mark (c : Char) (cs : List Char) : (mark c cs).kind.Shapes (mark c cs).text := by
  unfold mark
  split <;> trivial

theorem shapes_read (c : Char) (cs : List Char) : (read c cs).kind.Shapes (read c cs).text := by
  unfold read
  split
  · exact shapes_word c cs
  split
  · rename_i digit
    exact shapes_number digit cs
  split
  · trivial
  split
  · exact shapes_string cs
  split
  · exact shapes_character cs
  · exact shapes_mark c cs

end Lexeme

namespace Cursor

theorem shapes_next (place : Cursor) : (next place).1.kind.Shapes (next place).1.lexeme.toList := by
  unfold next
  generalize splitBlank place.rest = parts
  obtain ⟨skipped, rest⟩ := parts
  cases rest with
  | nil => trivial
  | cons c cs =>
    have shapes := Lexeme.shapes_read c cs
    dsimp only
    generalize Lexeme.read c cs = lexeme at shapes
    obtain ⟨kind, text, rest⟩ := lexeme
    cases kind with
    | fault f => trivial
    | _ => simpa only [String.toList_ofList] using shapes

theorem shapes_readAll (place : Cursor) :
    ∀ t ∈ (readAll place).1, t.kind.Shapes t.lexeme.toList := by
  fun_induction readAll place with
  | case1 place last =>
    intro t inside
    obtain rfl := List.mem_singleton.1 inside
    exact shapes_next place
  | case2 place more tokens last rest ih =>
    rw [rest] at ih
    intro t inside
    rcases List.mem_cons.1 inside with rfl | inside
    · exact shapes_next place
    · exact ih t inside

/-! ## The end of the source -/

theorem readAll_eq (place : Cursor) : ∃ ts last, (readAll place).1 = ts ++ [last] ∧
    last.kind = .endOfSource ∧ ∀ t ∈ ts, t.kind ≠ .endOfSource := by
  fun_induction readAll place with
  | case1 place last => exact ⟨[], _, rfl, last, by simp⟩
  | case2 place more tokens last rest ih =>
    obtain ⟨ts, t, whole, ends, front⟩ := ih
    rw [rest] at whole
    refine ⟨_ :: ts, t, congrArg _ whole, ends, fun u inside => ?_⟩
    rcases List.mem_cons.1 inside with rfl | inside
    · exact more
    · exact front u inside

end Cursor

/-- The end of the source is the last token and no other. -/
theorem tokenize_eq (source : String) : ∃ ts last, tokenize source = ts ++ [last] ∧
    last.kind = .endOfSource ∧ ∀ t ∈ ts, t.kind ≠ .endOfSource :=
  (Cursor.ofSource source).readAll_eq

/-- The texts of real and character literals look as they should. -/
theorem shapes_of_mem_tokenize {source : String} {t : Token} (inside : t ∈ tokenize source) :
    t.kind.Shapes t.lexeme.toList :=
  (Cursor.ofSource source).shapes_readAll t inside

end Pseudocode
