import Pseudocode.Proofs.Expr.Printing
import Pseudocode.Proofs.Token.Unread
/-!
# What is behind a NUL has no influence

The scanner reads nothing behind the first NUL of a source, and the parser knows a source by its
tokens and by the ranges that are its string literals. So two sources with the same bytes in front
of their first NUL are the same to both, and each is the same as these bytes alone.

* `parse_congr`: the parser knows a source by its tokens;
* `Holds.render_congr`: the literals of sources with the same tokens;
* `indistinct_of_front`: two sources that are the same up to their first NUL;
* `unread_behind_nul`: a source and its front part.
-/
namespace Pseudocode

open ByteCursor (call?)

/-- What there is to be seen of the one source is to be seen of the other: the tokens that calls of
the scanner hand out one by one, the list of tokens, the end that further calls find, and what the
parser makes of it. -/
structure Indistinct (source other : String) : Prop where
  call : ∀ n, call? source n (.ofSource source) = call? other n (.ofSource other)
  tokens : tokenize source = tokenize other
  /-- A call that finds the end is followed by calls that find the same end. -/
  ended : ∀ n m t, call? source n (.ofSource source) = some t → t.kind = .endOfSource →
    call? source (n + m) (.ofSource source) = some t ∧
      call? other (n + m) (.ofSource other) = some t
  /-- A scanner that has handed out all tokens goes on with the last one. -/
  later : ∃ last, (tokenize source).getLast? = some last ∧ last.kind = .endOfSource ∧
    ∀ n, ((Scanner.ofSource source).drain.2.take n).1 = List.replicate n last ∧
      ((Scanner.ofSource other).drain.2.take n).1 = List.replicate n last
  /-- The same error, or the same nodes in storage and the same tree with the same lines. -/
  parse : ∀ limits arena,
    parse limits arena other = (parse limits arena source).map ({ · with source := other })
  /-- The string literals of the tree have the same text. -/
  texts : ∀ limits arena ast, Pseudocode.parse limits arena source = .ok ast →
    ∀ value ∈ ast.expr.literals, value.render other = value.render source

section
variable {source other : String}

/-- The parser knows a source by its tokens. -/
theorem parse_congr (tokens : tokenize source = tokenize other) (limits : ParseLimits)
    (arena : Arena) :
    parse limits arena other = (parse limits arena source).map ({ · with source := other }) := by
  have stream : TokenStream.ofSource source = .ofSource other := by
    rw [TokenStream.ofSource, tokens]
    rfl
  unfold parse
  rw [stream]
  cases ParseState.advance ⟨.ofSource other, arena⟩ with
  | error e => rfl
  | ok s =>
    simp only [bind, Except.bind]
    cases readOperand limits limits.nesting 1 s with
    | error e => rfl
    | ok read =>
      simp only []
      cases read.2.expect .endOfSource .expectedEnd with
      | error e => rfl
      | ok s => rfl

/-- A literal has the same text in all sources that are scanned from the same characters. -/
theorem Holds.render_congr {e : Expr} (holds : Holds source e)
    (front : source.toList.takeWhile (· != '\x00') = other.toList.takeWhile (· != '\x00'))
    {value : Literal} (inside : value ∈ e.literals) :
    value.render other = value.render source := by
  obtain ⟨t, token, -, denotes⟩ := holds.token_of_mem inside
  cases denotes with
  | string kind =>
    have real : t.kind.isFault = false := by rw [kind]; rfl
    obtain ⟨before, l, origin⟩ := origin_of_mem_tokenize token real (by rw [kind]; exact nofun)
    have cut := origin.slice?
    rw [front] at origin
    exact origin.slice?.trans cut.symm
  | _ => rfl

/-- Sources with the same characters in front of their first NUL are the same to all. -/
theorem indistinct_of_front
    (front : source.toList.takeWhile (· != '\x00') = other.toList.takeWhile (· != '\x00')) :
    Indistinct source other := by
  have whole := (List.takeWhile_append_dropWhile (p := (· != '\x00')) (l := source.toList)).symm
  have whole' := (List.takeWhile_append_dropWhile (p := (· != '\x00')) (l := other.toList)).symm
  rw [← front] at whole'
  have ranges := sameRanges_of_front whole whole'
  have alike : ByteCursor.Alike (Text.byteLength (source.toList.takeWhile (· != '\x00')))
      (.ofSource source) (.ofSource other) := by
    refine ⟨?_, rfl, rfl, ?_⟩
    · exact (bytes_scanned source).trans (front ▸ (bytes_scanned other).symm)
    · exact (Nat.zero_add _).trans (length_scanned source)
  have calls (n : Nat) := ByteCursor.call?_eq ranges n alike
  have start : Cursor.ofSource source = .ofSource other := by rw [Cursor.ofSource, front]; rfl
  have tokens : tokenize source = tokenize other := by rw [tokenize, start]; rfl
  refine ⟨calls, tokens, fun n m t called ends => ?_, ?_, parse_congr tokens, ?_⟩
  · have found := ByteCursor.call?_behind_end m called ends
    exact ⟨found, calls (n + m) ▸ found⟩
  · obtain ⟨last, found, ends, stays⟩ := (Cursor.ofSource source).readAll_last
    refine ⟨last, found, ends, fun n => ⟨Scanner.take_of_stays stays n, ?_⟩⟩
    rw [start] at stays
    exact Scanner.take_of_stays stays n
  · intro limits arena ast parsed value inside
    exact (accepts_of_parse parsed).1.holds.render_congr front inside

end

/-- What is behind the first NUL of a source has no influence: the source is the same as the bytes
in front of that NUL, and as any other source that starts with them and ends there, or goes on with
a NUL. -/
theorem unread_behind_nul (source : String) :
    (∃ front, Text.slice? source 0 ((Text.bytes source).takeWhile (· != 0)).length = some front ∧
      Indistinct source front) ∧
    ∀ other, (Text.bytes source).takeWhile (· != 0) = (Text.bytes other).takeWhile (· != 0) →
      Indistinct source other := by
  constructor
  · refine ⟨String.ofList (source.toList.takeWhile (· != '\x00')), ?_, indistinct_of_front ?_⟩
    · rw [Text.slice?_eq_some_iff, length_scanned]
      exact ⟨[], source.toList.dropWhile (· != '\x00'),
        List.takeWhile_append_dropWhile.symm, rfl, rfl⟩
    · rw [String.toList_ofList]
      exact (List.takeWhile_eq_self_iff.2 fun c inside =>
        List.all_eq_true.1 List.all_takeWhile c inside).symm
  · intro other same
    rw [bytes_scanned, bytes_scanned] at same
    exact indistinct_of_front (Text.encode_injective same)

/-- A comment that a NUL ends, with a line and an operator behind it, or with a string that is not
closed. -/
theorem unread_behind_nul_comment :
    let source := "\"a\" // \x00\n&"
    let other := "\"a\" // \x00\""
    (Text.bytes source).takeWhile (· != 0) = (Text.bytes other).takeWhile (· != 0) ∧
      Indistinct source "\"a\" // " ∧ Indistinct source other ∧
      ∃ ast, parse .standard .standard source = .ok ast ∧
        parse .standard .standard other = .ok { ast with source := other } := by
  intro source other
  have same : (Text.bytes source).takeWhile (· != 0) = (Text.bytes other).takeWhile (· != 0) := by
    decide
  obtain ⟨⟨front, cut, indistinct⟩, others⟩ := unread_behind_nul source
  have slice : Text.slice? source 0 ((Text.bytes source).takeWhile (· != 0)).length =
      some "\"a\" // " := by
    decide
  obtain rfl := Option.some.inj (cut.symm.trans slice)
  have accepted : (parse .standard .standard source).toBool = true := by
    dsimp only [source]; cbv
  refine ⟨same, indistinct, others other same, ?_⟩
  have parsed := (others other same).parse .standard .standard
  cases found : parse .standard .standard source with
  | error e =>
    rw [found] at accepted
    cases accepted
  | ok ast =>
    rw [found] at parsed
    exact ⟨ast, rfl, parsed⟩

end Pseudocode
