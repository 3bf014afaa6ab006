import Pseudocode.Proofs.Token.Tiling
/-!
# What is behind a NUL is not read

All that the scanner of bytes reads is in front of the next NUL. So from two places with the same
bytes up to their next NUL it hands out the same tokens, or fails at the same call, whatever stands
behind the NULs; and where one of its calls finds the end, all further calls find the same end.

* `slice?_of_front`: ranges in front of the NUL have the same text;
* `ByteCursor.Alike`: two places that are the same up to the NUL, with a lemma for each loop;
* `ByteCursor.Agree`: two results that are the same up to the NUL, with laws for one behind the
  other;
* `ByteCursor.agree_next?`: one call, and `ByteCursor.call?_eq`: any call, by induction.
-/
namespace Pseudocode

/-! ## Ranges -/

section
variable {source other : String}

/-- The texts have the same ranges up to byte `finish`. -/
def SameRanges (finish : Nat) (source other : String) : Prop :=
  ∀ start length, start + length ≤ finish →
    Text.slice? source start length = Text.slice? other start length

/-- A range of the common front part of two texts. -/
theorem slice?_of_front {xs ys zs : List Char} (whole : source.toList = xs ++ ys)
    (whole' : other.toList = xs ++ zs) {start length : Nat}
    (inside : start + length ≤ Text.byteLength xs) {text : String}
    (cut : Text.slice? source start length = some text) :
    Text.slice? other start length = some text := by
  rw [← String.ofList_toList (s := text)] at cut ⊢
  obtain ⟨front, back, parts, before, width⟩ := Text.slice?_eq_some_iff.1 cut
  rw [Text.slice?_eq_some_iff]
  rw [whole, ← List.append_assoc, List.append_eq_append_iff] at parts
  obtain ⟨more, longer, -⟩ | ⟨more, shorter, -⟩ := parts
  · have sizes := congrArg Text.byteLength longer
    have small := Text.length_le_byteLength more
    rw [Text.byteLength_append, Text.byteLength_append] at sizes
    obtain rfl : more = [] := List.length_eq_zero_iff.1 (by omega)
    refine ⟨front, zs, ?_, before, width⟩
    rw [whole', ← List.append_assoc, longer, List.append_nil]
  · refine ⟨front, more ++ zs, ?_, before, width⟩
    rw [whole', shorter, List.append_assoc, List.append_assoc]

theorem sameRanges_of_front {xs ys zs : List Char} (whole : source.toList = xs ++ ys)
    (whole' : other.toList = xs ++ zs) : SameRanges (Text.byteLength xs) source other :=
  fun _ _ inside => Option.ext fun _ =>
    ⟨slice?_of_front whole whole' inside, slice?_of_front whole' whole inside⟩

end

/-! ## Places -/

namespace ByteCursor

/-- The bytes up to the next NUL. -/
def ahead (p : ByteCursor) : List UInt8 := p.rest.takeWhile (· != 0)

section
variable {p : ByteCursor} {b : UInt8} {bs : List UInt8}

theorem rest_of_ahead_cons (first : p.ahead = b :: bs) :
    b ≠ 0 ∧ ∃ more, p.rest = b :: more ∧ more.takeWhile (· != 0) = bs := by
  unfold ahead at first
  cases rest : p.rest with
  | nil =>
    rw [rest] at first
    cases first
  | cons c more =>
    rw [rest, List.takeWhile_cons] at first
    split at first
    · rename_i alive
      cases first
      exact ⟨bne_iff_ne.1 alive, more, rfl, rfl⟩
    · cases first

theorem current?_eq (p : ByteCursor) : p.current? = p.ahead.head? := by
  unfold current? ahead
  cases p.rest with
  | nil => rfl
  | cons b bs =>
    rw [List.head?_cons, Option.filter_some, List.takeWhile_cons]
    split <;> rfl

theorem ahead_of_current? (seen : p.current? = some b) : ∃ bs, p.ahead = b :: bs := by
  rw [current?_eq] at seen
  exact List.head?_eq_some_iff.1 seen

/-- What the next byte is hangs on the bytes up to the NUL too. -/
theorem peek?_eq (p : ByteCursor) : p.peek? = p.ahead[1]? := by
  rw [peek?, current?_eq]
  cases first : p.ahead with
  | nil => rfl
  | cons b bs =>
    obtain ⟨-, more, rest, behind⟩ := rest_of_ahead_cons first
    rw [rest, List.head?_cons, Option.bind_some, ← behind]
    cases more with
    | nil => rfl
    | cons c more =>
      simp only [List.getElem?_cons_succ, List.getElem?_cons_zero, Option.filter_some,
        List.takeWhile_cons]
      split <;> rfl

end

/-- Two places that are the same up to the next NUL, which is at byte `finish`. -/
structure Alike (finish : Nat) (p p' : ByteCursor) : Prop where
  ahead : p.ahead = p'.ahead
  offset : p.offset = p'.offset
  line : p.line = p'.line
  finish : p.offset + p.ahead.length = finish

section
variable {finish : Nat} {p p' : ByteCursor} {b : UInt8}

theorem Alike.current? (alike : Alike finish p p') : p.current? = p'.current? := by
  rw [current?_eq, current?_eq, alike.ahead]

theorem Alike.peek? (alike : Alike finish p p') : p.peek? = p'.peek? := by
  rw [peek?_eq, peek?_eq, alike.ahead]

theorem Alike.offset_le (alike : Alike finish p p') : p.offset ≤ finish := by
  have := alike.finish
  omega

/-- A byte in sight is passed at both places. -/
theorem Alike.advance? (alike : Alike finish p p') (seen : p.current? = some b) :
    ∃ q q', p.advance? = some q ∧ p'.advance? = some q' ∧ Alike finish q q' := by
  obtain ⟨bs, first⟩ := ahead_of_current? seen
  obtain ⟨-, more, rest, behind⟩ := rest_of_ahead_cons first
  obtain ⟨-, more', rest', behind'⟩ := rest_of_ahead_cons (alike.ahead ▸ first)
  have finish := alike.finish
  rw [first, List.length_cons] at finish
  refine ⟨⟨more, p.offset + 1, p.line⟩, ⟨more', p'.offset + 1, p'.line⟩, ?_, ?_,
    ⟨behind.trans behind'.symm, congrArg (· + 1) alike.offset, alike.line, ?_⟩⟩
  · rw [ByteCursor.advance?, rest]
  · rw [ByteCursor.advance?, rest']
  · show p.offset + 1 + (more.takeWhile (· != 0)).length = _
    rw [behind]
    omega

/-- What is ahead of a place behind bytes of a class. -/
theorem takeWhile_and (holds : UInt8 → Bool) (bs : List UInt8) :
    (bs.takeWhile fun b => b != 0 && holds b) = (bs.takeWhile (· != 0)).takeWhile holds ∧
      (bs.dropWhile fun b => b != 0 && holds b).takeWhile (· != 0) =
        (bs.takeWhile (· != 0)).dropWhile holds := by
  induction bs with
  | nil => exact ⟨rfl, rfl⟩
  | cons b bs ih =>
    by_cases nul : b = 0
    · subst nul
      exact ⟨rfl, rfl⟩
    · have alive : (b != 0) = true := bne_iff_ne.2 nul
      cases held : holds b <;> simp [alive, held, ih]

theorem Alike.passWhile (alike : Alike finish p p') (holds : UInt8 → Bool) :
    Alike finish (p.passWhile holds) (p'.passWhile holds) := by
  obtain ⟨front, back⟩ := takeWhile_and holds p.rest
  obtain ⟨front', back'⟩ := takeWhile_and holds p'.rest
  have same : p.rest.takeWhile (· != 0) = p'.rest.takeWhile (· != 0) := alike.ahead
  rw [← same] at front' back'
  refine ⟨back.trans back'.symm, ?_, alike.line, ?_⟩
  · exact congrArg₂ (· + ·) alike.offset (congrArg List.length (front.trans front'.symm))
  · have whole := congrArg List.length
      (List.takeWhile_append_dropWhile (p := holds) (l := p.rest.takeWhile (· != 0)))
    rw [List.length_append, ← front, ← back] at whole
    have finish := alike.finish
    unfold ByteCursor.ahead at finish ⊢
    unfold ByteCursor.passWhile
    dsimp only
    omega

/-! ## Loops -/

theorem rest_of_advance? {q : ByteCursor} (seen : p.current? = some b)
    (passed : p.advance? = some q) :
    b ≠ 0 ∧ p = ⟨b :: q.rest, p.offset, p.line⟩ ∧ q = ⟨q.rest, p.offset + 1, p.line⟩ := by
  obtain ⟨bs, first⟩ := ahead_of_current? seen
  obtain ⟨alive, more, rest, -⟩ := rest_of_ahead_cons first
  rw [ByteCursor.advance?, rest] at passed
  cases passed
  exact ⟨alive, rest ▸ rfl, rfl⟩

theorem length_of_advance? {q : ByteCursor} (seen : p.current? = some b)
    (passed : p.advance? = some q) : q.rest.length < p.rest.length := by
  obtain ⟨-, here, -⟩ := rest_of_advance? seen passed
  rw [here]
  exact Nat.lt_succ_self _

theorem length_passWhile_le (p : ByteCursor) (holds : UInt8 → Bool) :
    (p.passWhile holds).rest.length ≤ p.rest.length :=
  (List.dropWhile_sublist _).length_le

/-- Where no byte is in sight the bytes are over, or there is a NUL. -/
theorem rest_of_current?_eq_none (ended : p.current? = none) :
    p.rest = [] ∨ ∃ bs, p.rest = 0 :: bs := by
  unfold ByteCursor.current? at ended
  cases rest : p.rest with
  | nil => exact .inl rfl
  | cons b bs =>
    rw [rest, List.head?_cons, Option.filter_some] at ended
    split at ended
    · cases ended
    · rename_i nul
      exact .inr ⟨bs, by rw [Decidable.not_not.1 (mt bne_iff_ne.2 nul)]⟩

theorem skipBlank_of_end (ended : p.current? = none) : p.skipBlank = p := by
  obtain ⟨rest, offset, line⟩ := p
  obtain rfl | ⟨bs, rfl⟩ : rest = [] ∨ ∃ bs, rest = 0 :: bs := rest_of_current?_eq_none ended
  · rw [ByteCursor.skipBlank]
  · rw [ByteCursor.skipBlank, if_neg (by decide), if_neg fun slash => absurd slash.1 (by decide)]

theorem skipBlank_of_byte {q : ByteCursor} (seen : p.current? = some b)
    (passed : p.advance? = some q) :
    p.skipBlank = if b = 0x20 ∨ b = 0x09 ∨ b = 0x0D then q.skipBlank
      else if b = 0x2F ∧ p.peek? = some 0x2F then (q.passWhile (· != 0x0A)).skipBlank
      else p := by
  obtain ⟨-, here, there⟩ := rest_of_advance? seen passed
  rw [here, ByteCursor.skipBlank, ← there]

/-- Blanks and comments are skipped alike. Both stop at the NUL at the latest. -/
theorem Alike.skipBlank {p p' : ByteCursor} (alike : Alike finish p p') :
    Alike finish p.skipBlank p'.skipBlank := by
  cases seen : p.current? with
  | none =>
    rw [skipBlank_of_end seen, skipBlank_of_end (alike.current? ▸ seen)]
    exact alike
  | some b =>
    obtain ⟨q, q', passed, passed', behind⟩ := alike.advance? seen
    -- a blank or a comment is passed at both places, and fewer bytes are left
    have shorter := length_of_advance? seen passed
    have comment := q.length_passWhile_le (· != 0x0A)
    rw [skipBlank_of_byte seen passed, skipBlank_of_byte (alike.current? ▸ seen) passed',
      alike.peek?]
    split
    · exact behind.skipBlank
    split
    · exact (behind.passWhile _).skipBlank
    · exact alike
termination_by p.rest.length
decreasing_by all_goals omega

end

/-- Two results that are the same up to the NUL, or two failures. -/
inductive Agree (finish : Nat) {α : Type} :
    Option (α × ByteCursor) → Option (α × ByteCursor) → Prop where
  | none : Agree finish none none
  | some {x : α} {p p' : ByteCursor} (alike : Alike finish p p') :
    Agree finish (some (x, p)) (some (x, p'))

theorem Agree.bind {finish : Nat} {α β : Type} {r r' : Option (α × ByteCursor)}
    (agree : Agree finish r r') {next next' : α × ByteCursor → Option (β × ByteCursor)}
    (after : ∀ x {p p'}, Alike finish p p' → Agree finish (next (x, p)) (next' (x, p'))) :
    Agree finish (r.bind next) (r'.bind next') := by
  cases agree with
  | none => exact .none
  | some alike => exact after _ alike

section
variable {finish : Nat} {p p' : ByteCursor} {b quote : UInt8}

theorem readUntil?_of_end (ended : p.current? = none) :
    readUntil? quote p.rest p.offset p.line = some (false, p) := by
  obtain ⟨rest, offset, line⟩ := p
  obtain rfl | ⟨bs, rfl⟩ : rest = [] ∨ ∃ bs, rest = 0 :: bs := rest_of_current?_eq_none ended
  · rfl
  · rw [readUntil?, if_pos rfl]

theorem readUntil?_of_byte {q : ByteCursor} (seen : p.current? = some b)
    (passed : p.advance? = some q) :
    readUntil? quote p.rest p.offset p.line = if b = quote then some (true, q)
      else if b = 0x0A then (nextLine? q.line).bind (readUntil? quote q.rest q.offset)
      else readUntil? quote q.rest q.offset q.line := by
  obtain ⟨alive, here, there⟩ := rest_of_advance? seen passed
  rw [here, readUntil?, if_neg alive, there]

/-- A quote is searched alike, in front of the NUL only. -/
theorem Alike.readUntil? {p p' : ByteCursor} (alike : Alike finish p p') (quote : UInt8) :
    Agree finish (readUntil? quote p.rest p.offset p.line)
      (readUntil? quote p'.rest p'.offset p'.line) := by
  cases seen : p.current? with
  | none =>
    rw [readUntil?_of_end seen, readUntil?_of_end (alike.current? ▸ seen)]
    exact .some alike
  | some b =>
    obtain ⟨q, q', passed, passed', behind⟩ := alike.advance? seen
    have shorter := length_of_advance? seen passed
    rw [readUntil?_of_byte seen passed, readUntil?_of_byte (alike.current? ▸ seen) passed']
    split
    · exact .some behind
    split
    -- the line of a line end is counted alike, or there is no number for the next one
    · rw [← behind.line]
      cases nextLine? q.line with
      | none => exact .none
      | some line =>
        have next : Alike finish ⟨q.rest, q.offset, line⟩ ⟨q'.rest, q'.offset, line⟩ :=
          ⟨behind.ahead, behind.offset, rfl, behind.finish⟩
        exact next.readUntil? quote
    · exact behind.readUntil? quote
termination_by p.rest.length

end

/-! ## Tokens -/

section
variable {finish start : Nat} {source other : String} {p p' : ByteCursor}

theorem Alike.slice? (alike : Alike finish p p') (ranges : SameRanges finish source other)
    (inside : start ≤ finish) :
    Text.slice? source start (p.offset - start) = Text.slice? other start (p'.offset - start) := by
  have := alike.offset_le
  rw [← alike.offset]
  exact ranges _ _ (by omega)

theorem agree_token? (alike : Alike finish p p') (ranges : SameRanges finish source other)
    (inside : start ≤ finish) (kind : Kind) (line : UInt32) :
    Agree finish (p.token? source start kind line) (p'.token? other start kind line) := by
  unfold token?
  rw [alike.slice? ranges inside]
  cases Text.slice? other start (p'.offset - start) with
  | none => exact .none
  | some text => exact .some alike

theorem agree_fault (alike : Alike finish p p') (start : Nat) (f : Fault) :
    Agree finish (p.fault start f) (p'.fault start f) := by
  unfold fault
  rw [alike.line]
  exact .some alike

theorem agree_readWord? (alike : Alike finish p p') (ranges : SameRanges finish source other)
    (inside : start ≤ finish) :
    Agree finish (p.readWord? source start) (p'.readWord? other start) := by
  have passed := alike.passWhile fun b => Lexeme.isWordPart (Char.ofUInt8 b)
  unfold readWord?
  dsimp only
  rw [passed.slice? ranges inside, passed.line]
  cases Text.slice? other start _ with
  | none => exact .none
  | some word => exact agree_token? passed ranges inside _ _

theorem agree_readNumber? (alike : Alike finish p p') (ranges : SameRanges finish source other)
    (inside : start ≤ finish) :
    Agree finish (p.readNumber? source start) (p'.readNumber? other start) := by
  have whole := alike.passWhile fun b => (Char.ofUInt8 b).isDigit
  unfold readNumber?
  dsimp only
  rw [whole.current?, whole.peek?, whole.line]
  split
  · rename_i point
    obtain ⟨q, q', passed, passed', behind⟩ := whole.advance? (whole.current? ▸ point.1)
    rw [passed, passed', Option.bind_some, Option.bind_some, behind.line]
    exact agree_token? (behind.passWhile _) ranges inside _ _
  · exact agree_token? whole ranges inside _ _

theorem agree_readString? (alike : Alike finish p p') (ranges : SameRanges finish source other)
    (inside : start ≤ finish) :
    Agree finish (p.readString? source start) (p'.readString? other start) := by
  unfold readString?
  rw [alike.line]
  refine (alike.line ▸ alike.readUntil? 0x22).bind fun closed {q q'} found => ?_
  cases closed with
  | true => exact agree_token? found ranges inside _ _
  | false => exact agree_fault found _ _

theorem agree_readCharacter? (alike : Alike finish p p') (ranges : SameRanges finish source other)
    (inside : start ≤ finish) :
    Agree finish (p.readCharacter? source start) (p'.readCharacter? other start) := by
  unfold readCharacter?
  rw [alike.line]
  refine (alike.line ▸ alike.readUntil? 0x27).bind fun closed {q q'} found => ?_
  cases closed with
  | true =>
    simp only [if_true, found.offset]
    split
    · exact agree_fault found _ _
    split
    · exact agree_token? found ranges inside _ _
    · exact agree_fault found _ _
  | false => exact agree_fault found _ _

theorem agree_readMark? (alike : Alike finish p p') (ranges : SameRanges finish source other)
    (inside : start ≤ finish) (first : Char) :
    Agree finish (p.readMark? source start first) (p'.readMark? other start first) := by
  unfold readMark?
  rw [← alike.current?, alike.line]
  cases pair : p.current?.bind fun b => Symbol.pair? first (Char.ofUInt8 b) with
  | some s =>
    obtain ⟨b, seen, -⟩ := Option.bind_eq_some_iff.1 pair
    obtain ⟨q, q', passed, passed', behind⟩ := alike.advance? seen
    dsimp only
    rw [passed, passed']
    exact agree_token? behind ranges inside _ _
  | none =>
    dsimp only
    cases Symbol.single? first with
    | some s => exact agree_token? alike ranges inside _ _
    | none => exact agree_fault (alike.passWhile _) _ _

theorem agree_read? (alike : Alike finish p p') (ranges : SameRanges finish source other)
    (inside : start ≤ finish) (first : Char) :
    Agree finish (read? source start first p) (read? other start first p') := by
  unfold read?
  split
  · exact agree_readWord? alike ranges inside
  split
  · exact agree_readNumber? alike ranges inside
  split
  · rw [alike.line]
    refine (agree_token? alike ranges inside _ _).bind fun t {q q'} behind => ?_
    dsimp only
    rw [behind.line]
    cases nextLine? q'.line with
    | none => exact .none
    | some line => exact .some ⟨behind.ahead, behind.offset, rfl, behind.finish⟩
  split
  · exact agree_readString? alike ranges inside
  split
  · exact agree_readCharacter? alike ranges inside
  · exact agree_readMark? alike ranges inside first

/-- One call reads nothing behind the NUL. -/
theorem agree_next? (alike : Alike finish p p') (ranges : SameRanges finish source other) :
    Agree finish (p.next? source) (p'.next? other) := by
  have dark := alike.skipBlank
  unfold next?
  dsimp only
  rw [← dark.current?, ← dark.offset, ← dark.line]
  cases seen : p.skipBlank.current? with
  | none => exact agree_token? dark ranges dark.offset_le _ _
  | some b =>
    obtain ⟨q, q', passed, passed', behind⟩ := dark.advance? seen
    dsimp only
    rw [passed, passed']
    exact agree_read? behind ranges dark.offset_le _

end

/-! ## Calls -/

/-- The token that the call behind `n` others hands out, if none of them fails. -/
def call? (source : String) : Nat → ByteCursor → Option Token
  | 0, p => (p.next? source).map Prod.fst
  | n + 1, p => (p.next? source).bind fun (_, q) => call? source n q

/-- Calls from places that are the same up to the NUL, by induction on their number. -/
theorem call?_eq {finish : Nat} {source other : String} (ranges : SameRanges finish source other)
    (n : Nat) : ∀ {p p' : ByteCursor}, Alike finish p p' →
      call? source n p = call? other n p' := by
  induction n with
  | zero =>
    intro p p' alike
    have next := agree_next? alike ranges
    unfold call?
    generalize p.next? source = r at next ⊢
    generalize p'.next? other = r' at next ⊢
    cases next <;> rfl
  | succ n ih =>
    intro p p' alike
    have next := agree_next? alike ranges
    unfold call?
    generalize p.next? source = r at next ⊢
    generalize p'.next? other = r' at next ⊢
    cases next with
    | none => rfl
    | some behind => exact ih behind

/-! ## Behind the end -/

/-- The token of a result is not the end of the source. -/
def GoesOn (r : Option (Token × ByteCursor)) : Prop :=
  ∀ called, r = some called → called.1.kind ≠ .endOfSource

section
variable {source : String} {p q : ByteCursor}

theorem goesOn_token? (source : String) (start : Nat) {kind : Kind} (more : kind ≠ .endOfSource)
    (line : UInt32) (p : ByteCursor) : GoesOn (p.token? source start kind line) := by
  intro called found
  obtain ⟨text, -, rfl⟩ := Option.map_eq_some_iff.1 found
  exact more

theorem goesOn_fault (start : Nat) (f : Fault) (p : ByteCursor) : GoesOn (p.fault start f) := by
  rintro called ⟨⟩
  exact Kind.noConfusion

theorem goesOn_bind {α : Type} {r : Option α} {next : α → Option (Token × ByteCursor)}
    (after : ∀ x, GoesOn (next x)) : GoesOn (r.bind next) := by
  intro called found
  obtain ⟨x, -, found⟩ := Option.bind_eq_some_iff.1 found
  exact after x called found

/-- What begins with a byte in sight is not the end. -/
theorem goesOn_read? (source : String) (start : Nat) (first : Char) (p : ByteCursor) :
    GoesOn (read? source start first p) := by
  unfold read?
  split
  · refine goesOn_bind fun word => goesOn_token? _ _ ?_ _ _
    unfold Kind.ofWord
    split <;> exact Kind.noConfusion
  split
  · unfold readNumber?
    dsimp only
    split
    · exact goesOn_bind fun _ => goesOn_token? _ _ Kind.noConfusion _ _
    · exact goesOn_token? _ _ Kind.noConfusion _ _
  split
  · intro called found
    obtain ⟨⟨t, q⟩, taken, found⟩ := Option.bind_eq_some_iff.1 found
    obtain ⟨line, -, rfl⟩ := Option.map_eq_some_iff.1 found
    exact goesOn_token? source start Kind.noConfusion p.line p (t, q) taken
  split
  · refine goesOn_bind fun (closed, q) => ?_
    dsimp only
    split
    · exact goesOn_token? _ _ Kind.noConfusion _ _
    · exact goesOn_fault _ _ _
  split
  · refine goesOn_bind fun (closed, q) => ?_
    dsimp only
    split
    · split
      · exact goesOn_fault _ _ _
      split
      · exact goesOn_token? _ _ Kind.noConfusion _ _
      · exact goesOn_fault _ _ _
    · exact goesOn_fault _ _ _
  · unfold readMark?
    split
    · exact goesOn_bind fun _ => goesOn_token? _ _ Kind.noConfusion _ _
    · split
      · exact goesOn_token? _ _ Kind.noConfusion _ _
      · exact goesOn_fault _ _ _

/-- Where a call has found the end the next call finds it again. -/
theorem next?_of_end {t : Token} (called : p.next? source = some (t, q))
    (ends : t.kind = .endOfSource) : q.next? source = some (t, q) := by
  unfold next? at called
  dsimp only at called
  cases seen : p.skipBlank.current? with
  | none =>
    rw [seen] at called
    obtain ⟨text, cut, same⟩ := Option.map_eq_some_iff.1 called
    obtain ⟨rfl, rfl⟩ := Prod.mk.inj same
    rw [next?, skipBlank_of_end seen, seen]
    exact called
  | some b =>
    rw [seen] at called
    exact absurd ends (goesOn_bind (goesOn_read? _ _ _) _ called)

theorem call?_of_stays {t : Token} (stays : p.next? source = some (t, p)) (n : Nat) :
    call? source n p = some t := by
  induction n with
  | zero => rw [call?, stays, Option.map_some]
  | succ n ih =>
    rw [call?, stays]
    exact ih

/-- All calls behind one that has found the end find the same end. -/
theorem call?_behind_end {t : Token} {n : Nat} (m : Nat) (called : call? source n p = some t)
    (ends : t.kind = .endOfSource) : call? source (n + m) p = some t := by
  induction n generalizing p with
  | zero =>
    obtain ⟨⟨t, q⟩, next, rfl⟩ := Option.map_eq_some_iff.1 called
    cases m with
    | zero => exact called
    | succ m =>
      rw [Nat.zero_add, call?, next]
      exact call?_of_stays (next?_of_end next ends) m
  | succ n ih =>
    obtain ⟨⟨u, q⟩, next, called⟩ := Option.bind_eq_some_iff.1 called
    rw [Nat.succ_add, call?, next]
    exact ih called

end

end ByteCursor

/-- The scanner of a source that has handed out all its tokens hands out the last one, as often as
it is asked. -/
theorem Cursor.readAll_last (place : Cursor) : ∃ last, (readAll place).1.getLast? = some last ∧
    last.kind = .endOfSource ∧ (readAll place).2.next = (last, (readAll place).2) := by
  fun_induction readAll place with
  | case1 place ends =>
    obtain ⟨skipped, text, advance⟩ := place.advance_next
    refine ⟨_, rfl, ends, ?_⟩
    generalize place.next = called at advance ends ⊢
    cases advance with
    | token split =>
      rw [Lexeme.kind_token] at ends
      exact absurd ends (Lexeme.read_kind_ne_endOfSource _ _)
    | finish split => exact @next_eq_end ⟨[], _, _⟩ [] rfl
  | case2 place more tokens last rest ih =>
    rw [rest] at ih
    obtain ⟨t, found, ends, stays⟩ := ih
    refine ⟨t, ?_, ends, stays⟩
    rw [List.getLast?_cons, show tokens.getLast? = some t from found]
    rfl

theorem Scanner.take_of_stays {s : Scanner} {t : Token} (stays : s.place.next = (t, s.place))
    (n : Nat) : (s.take n).1 = List.replicate n t := by
  induction n with
  | zero => rfl
  | succ n ih =>
    rw [take, stays]
    exact congrArg (t :: ·) ih

end Pseudocode
