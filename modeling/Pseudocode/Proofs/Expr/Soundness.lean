import Pseudocode.Proofs.Expr.Grammar
import Pseudocode.Proofs.Expr.Storage
import Pseudocode.Proofs.Results
import Pseudocode.Proofs.Token.Scanning
/-!
# What the parser reads is an expression

An operand that is read has a derivation in the stratum it was read for, fits the limits and is
stored. The loop over operators carries an operand of some stratum in front of a token that is no
operator of a tighter one; reading an operator first loosens the operand to the operator's stratum.

* `Literal.denotes_of_ofToken`, `Token.Denotes.ofToken`: which literals are accepted;
* `ParseState.stored_of_store`: what storing a node does;
* `sound_readPrimary`, `sound_climb`, `sound_readOperand`: the readers, by induction on the nesting
  that is left.
-/
namespace Pseudocode

/-! ## Streams -/

namespace TokenStream

/-- The tokens from the one in sight on. -/
def tokens (s : TokenStream) : List Token := s.current :: s.rest

/-- The tokens are some that a scanner hands out, up to the end of the source. -/
structure Sane (s : TokenStream) : Prop where
  ends : ∃ last, s.tokens.getLast? = some last ∧ last.kind = .endOfSource
  shapes : ∀ t ∈ s.tokens, t.kind.Shapes t.lexeme.toList

theorem Sane.suffix {s s' : TokenStream} (sane : s.Sane) {ts : List Token}
    (passed : s.tokens = ts ++ s'.tokens) : s'.Sane where
  ends := by
    obtain ⟨last, found, ends⟩ := sane.ends
    rw [passed, List.getLast?_append, tokens, List.getLast?_cons, Option.some_or] at found
    rw [tokens, List.getLast?_cons]
    exact ⟨last, found, ends⟩
  shapes := fun t inside => sane.shapes t (by rw [passed]; exact List.mem_append_right _ inside)

/-- Moving on leaves the tokens behind the one in sight, if there are any. -/
theorem tokens_eq_rest {s s' : TokenStream} (moved : s.advance = .ok s') (more : s.rest ≠ []) :
    s'.tokens = s.rest := by
  unfold advance at moved
  split at moved
  · rename_i none
    exact absurd none more
  · rename_i t ts rest
    split at moved
    · cases moved
    · cases moved
      exact rest.symm

/-- Moving on passes the token in sight, unless that is the end of the source. -/
theorem tokens_of_advance {s s' : TokenStream} (sane : s.Sane)
    (more : s.current.kind ≠ .endOfSource) (moved : s.advance = .ok s') :
    s.tokens = s.current :: s'.tokens := by
  rw [tokens_eq_rest moved, tokens]
  intro none
  obtain ⟨last, found, ends⟩ := sane.ends
  rw [tokens, none] at found
  cases found
  exact more ends

end TokenStream

/-! ## Steps of the parser -/

/-- The operator that the token is, if any, is weaker than that. -/
def Token.Weaker (strength : Nat) (t : Token) : Prop :=
  ∀ op, BinaryOp.ofKind? t.kind = some op → op.strength < strength

namespace ParseState

theorem advance_eq_ok {s s' : ParseState} (moved : s.advance = .ok s') :
    s.stream.advance = .ok s'.stream ∧ s'.arena = s.arena := by
  rw [advance] at moved
  cases step : s.stream.advance with
  | error e => rw [step] at moved; cases moved
  | ok stream => rw [step] at moved; cases moved; exact ⟨rfl, rfl⟩

theorem expect_eq_ok {s s' : ParseState} {kind : Kind} {c : Complaint}
    (moved : s.expect kind c = .ok s') : s.stream.current.kind = kind ∧ s.advance = .ok s' := by
  rw [expect, TokenStream.expect] at moved
  split at moved
  · rename_i seen
    exact ⟨seen, moved⟩
  · cases moved

end ParseState

theorem Token.fits_of_kind {t : Token} {k : Kind} (kind : t.kind = k) (different : k ≠ .integer) :
    t.Fits :=
  fun same => absurd (kind.symm.trans same) different

theorem takeWhile_isDigit (whole fraction : List Char)
    (digits : ∀ c ∈ whole, c.isDigit = true) :
    (whole ++ '.' :: fraction).takeWhile Char.isDigit = whole ∧
      (whole ++ '.' :: fraction).dropWhile Char.isDigit = '.' :: fraction := by
  rw [List.takeWhile_append_of_pos digits, List.dropWhile_append_of_pos digits]
  exact ⟨List.append_nil whole, rfl⟩

/-- A literal that is accepted is what the token stands for, and no integer that is too large. -/
theorem Literal.denotes_of_ofToken {t : Token} {value : Literal}
    (shapes : t.kind.Shapes t.lexeme.toList) (accepted : ofToken t = .ok value) :
    t.Denotes value ∧ t.Fits := by
  unfold ofToken at accepted
  split at accepted
  · rename_i kind
    cases accepted
    exact ⟨.trueWord kind, Token.fits_of_kind kind Kind.noConfusion⟩
  · rename_i kind
    cases accepted
    exact ⟨.falseWord kind, Token.fits_of_kind kind Kind.noConfusion⟩
  · rename_i kind
    dsimp only at accepted
    split at accepted
    · rename_i small
      cases accepted
      exact ⟨.integer kind, fun _ => small⟩
    · cases accepted
  · rename_i kind
    rw [kind] at shapes
    obtain ⟨whole, fraction, text, digits⟩ := shapes
    obtain ⟨front, back⟩ := takeWhile_isDigit whole fraction fun c inside =>
      digits c (List.mem_append_left _ inside)
    rw [text] at accepted
    dsimp only at accepted
    rw [front, back] at accepted
    cases accepted
    exact ⟨.real kind text digits, Token.fits_of_kind kind Kind.noConfusion⟩
  · rename_i kind
    rw [kind] at shapes
    obtain ⟨c, text⟩ := shapes
    rw [text] at accepted
    cases accepted
    exact ⟨.character kind text, Token.fits_of_kind kind Kind.noConfusion⟩
  · rename_i kind
    cases accepted
    exact ⟨.string kind, Token.fits_of_kind kind Kind.noConfusion⟩
  · cases accepted

/-- What a token stands for is accepted, if it is no integer that is too large. -/
theorem Token.Denotes.ofToken {t : Token} {value : Literal} (denotes : t.Denotes value)
    (fits : t.Fits) : Literal.ofToken t = .ok value := by
  unfold Literal.ofToken
  cases denotes with
  | trueWord kind | falseWord kind | string kind => rw [kind]
  | integer kind =>
    rw [kind]
    exact if_pos (fits kind)
  | @real kind whole fraction text digits =>
    obtain ⟨front, back⟩ := takeWhile_isDigit whole fraction fun c inside =>
      digits c (List.mem_append_left _ inside)
    rw [kind, text]
    dsimp only
    rw [front, back]
    rfl
  | character kind text =>
    rw [kind, text]
    rfl

/-! ## Operands -/

/-- The operand is stored as its expression, and no higher than the limit. -/
structure Operand.Stored (limits : ParseLimits) (a : Arena) (x : Operand) : Prop where
  unfolds : a.Unfolds x.id x.expr
  height : x.height = x.expr.height
  low : x.expr.height ≤ limits.height
  room : x.expr.height ≤ a.size

namespace ParseState
variable {s s' : ParseState} {limits : ParseLimits}

/-- A node that is stored leads to its expression if its operands do to theirs. -/
theorem stored_of_store {t : Token} {payload : Payload} {e : Expr} {height : Nat} {x : Operand}
    (read : s.store limits t payload e height = .ok (x, s'))
    (leads : ∀ {a id}, s.arena.Grows a → a.get? id = some ⟨t.line, payload⟩ → a.Unfolds id e)
    (same : height = e.height) (room : e.height ≤ s.arena.size + 1) :
    s'.stream = s.stream ∧ s.arena.Grows s'.arena ∧ x.expr = e ∧ x.Stored limits s'.arena := by
  have grows := s.arena.grows_alloc ⟨t.line, payload⟩
  have found := s.arena.get?_alloc ⟨t.line, payload⟩
  have size := s.arena.size_alloc ⟨t.line, payload⟩
  unfold store at read
  generalize s.arena.alloc ⟨t.line, payload⟩ = stored at *
  split at read
  · cases read
  · rename_i low
    cases read
    refine ⟨rfl, grows, rfl, leads grows found, same, ?_, ?_⟩
    · rw [← same]
      exact Nat.le_of_not_lt low
    · rw [size]
      exact room

theorem tokens_of_advance (sane : s.stream.Sane) (more : s.stream.current.kind ≠ .endOfSource)
    (moved : s.advance = .ok s') :
    s.stream.tokens = s.stream.current :: s'.stream.tokens ∧ s'.stream.Sane ∧
      s'.arena = s.arena := by
  obtain ⟨step, same⟩ := advance_eq_ok moved
  have passed := s.stream.tokens_of_advance sane more step
  exact ⟨passed, @TokenStream.Sane.suffix _ _ sane [s.stream.current] passed, same⟩

end ParseState

/-! ## Readers -/

/-- Reading the tokens as an expression of the stratum, in so many operand positions, led from one
storage to another with the operand. -/
structure Reads (limits : ParseLimits) (nesting : Nat) (n : Stratum) (ts : List Token) (a : Arena)
    (x : Operand) (b : Arena) : Prop where
  derived : Derives n ts x.expr
  fits : ∀ t ∈ ts, t.Fits
  depth : x.expr.depth ≤ nesting
  stored : x.Stored limits b
  grows : a.Grows b

theorem Reads.lower {limits : ParseLimits} {nesting : Nat} {m n : Stratum} {ts : List Token}
    {a b : Arena} {x : Operand} (reads : Reads limits nesting n ts a x b)
    (looser : m.rank ≤ n.rank) : Reads limits nesting m ts a x b :=
  { reads with derived := reads.derived.lower looser }

section
variable {limits : ParseLimits} {nesting : Nat} {a : Arena} {t : Token} {s s' : ParseState}
  {x z : Operand}

theorem reads_literal {value : Literal} (denotes : t.Denotes value) (fits : t.Fits)
    (store : s.store limits t (.literal value) (.literal t.line value) 1 = .ok (z, s')) :
    s'.stream = s.stream ∧ Reads limits (nesting + 1) .unary [t] s.arena z s'.arena := by
  obtain ⟨stream, grows, expr, stored⟩ := ParseState.stored_of_store store
    (fun _ found => .literal found) rfl (Nat.succ_le_succ (Nat.zero_le _))
  refine ⟨stream, ?_, ?_, ?_, stored, grows⟩
  · rw [expr]
    exact .tighter (.literal denotes)
  · rw [List.forall_mem_singleton]
    exact fits
  · rw [expr]
    exact Nat.succ_le_succ (Nat.zero_le _)

theorem reads_unary {op : UnaryOp} {ts : List Token} (named : t.kind = op.kind)
    (operand : Reads limits nesting .unary ts a x s.arena)
    (store : s.store limits t (.unary op x.id) (.unary t.line op x.expr) (x.height + 1) =
      .ok (z, s')) :
    s'.stream = s.stream ∧ Reads limits (nesting + 1) .unary (t :: ts) a z s'.arena := by
  obtain ⟨stream, grows, expr, stored⟩ := ParseState.stored_of_store store
    (fun grows found => .unary found (operand.stored.unfolds.grows grows))
    (congrArg (· + 1) operand.stored.height) (Nat.succ_le_succ operand.stored.room)
  refine ⟨stream, ?_, ?_, ?_, stored, operand.grows.trans grows⟩
  · rw [expr]
    exact .unary named operand.derived
  · rw [List.forall_mem_cons]
    exact ⟨Token.fits_of_kind named (by cases op <;> exact Kind.noConfusion), operand.fits⟩
  · rw [expr]
    exact Nat.succ_le_succ operand.depth

/-- Parentheses that are stored behind what they hold. -/
theorem reads_group {u : Token} {ts : List Token} (opening : t.kind = .symbol .leftParen)
    (inner : Reads limits nesting .or ts a x s.arena) (closing : u.kind = .symbol .rightParen)
    (store : s.store limits t (.group x.id) (.group t.line x.expr) (x.height + 1) = .ok (z, s')) :
    s'.stream = s.stream ∧
      Reads limits (nesting + 1) .unary (t :: (ts ++ [u])) a z s'.arena := by
  obtain ⟨stream, grows, expr, stored⟩ := ParseState.stored_of_store store
    (fun grows found => .group found (inner.stored.unfolds.grows grows))
    (congrArg (· + 1) inner.stored.height) (Nat.succ_le_succ inner.stored.room)
  refine ⟨stream, ?_, ?_, ?_, stored, inner.grows.trans grows⟩
  · rw [expr]
    exact .tighter (.group opening inner.derived closing)
  · rw [List.forall_mem_cons, List.forall_mem_append, List.forall_mem_singleton]
    exact ⟨Token.fits_of_kind opening Kind.noConfusion, inner.fits,
      Token.fits_of_kind closing Kind.noConfusion⟩
  · rw [expr]
    exact Nat.succ_le_succ inner.depth

theorem reads_binary {op : BinaryOp} {ls rs : List Token} {b : Arena} {y : Operand}
    (left : Reads limits (nesting + 1) op.stratum ls a x b) (named : t.kind = op.kind)
    (right : Reads limits nesting op.stratum.next rs b y s.arena)
    (store : s.store limits t (.binary op x.id y.id) (.binary t.line op x.expr y.expr)
      (max x.height y.height + 1) = .ok (z, s')) :
    s'.stream = s.stream ∧
      Reads limits (nesting + 1) op.stratum (ls ++ t :: rs) a z s'.arena := by
  have same : max x.height y.height + 1 = (Expr.binary t.line op x.expr y.expr).height := by
    rw [left.stored.height, right.stored.height]
    rfl
  have room := Nat.max_le.2
    ⟨Nat.le_trans left.stored.room right.grows.size, right.stored.room⟩
  obtain ⟨stream, grows, expr, stored⟩ := ParseState.stored_of_store store
    (fun grows found => .binary found (left.stored.unfolds.grows (right.grows.trans grows))
      (right.stored.unfolds.grows grows)) same (Nat.succ_le_succ room)
  refine ⟨stream, ?_, ?_, ?_, stored, left.grows.trans (right.grows.trans grows)⟩
  · rw [expr]
    exact .binary left.derived named right.derived
  · rw [List.forall_mem_append, List.forall_mem_cons]
    exact ⟨left.fits, Token.fits_of_kind named (by cases op <;> exact Kind.noConfusion),
      right.fits⟩
  · rw [expr]
    exact Nat.max_le.2 ⟨left.depth, Nat.succ_le_succ right.depth⟩

end

/-- What the reader gives for a stratum is an expression of it, in front of a token that is no
operator of the stratum or a tighter one. -/
def Sound (limits : ParseLimits) (nesting : Nat) (operand : OperandReader) : Prop :=
  ∀ {n : Stratum} {s s' : ParseState} {x : Operand}, n.rank ≤ 7 → s.stream.Sane →
    operand n.rank s = .ok (x, s') → ∃ ts, s.stream.tokens = ts ++ s'.stream.tokens ∧
      Reads limits nesting n ts s.arena x s'.arena ∧ s'.stream.current.Weaker n.rank

section
variable {limits : ParseLimits} {nesting : Nat} {operand : OperandReader}

theorem sound_readPrimary (sound : Sound limits nesting operand) {t : Token} {s s' : ParseState}
    {x : Operand} (sane : s.stream.Sane) (shapes : t.kind.Shapes t.lexeme.toList)
    (read : readPrimary limits operand t s = .ok (x, s')) :
    ∃ ts, s.stream.tokens = ts ++ s'.stream.tokens ∧
      Reads limits (nesting + 1) .unary (t :: ts) s.arena x s'.arena := by
  unfold readPrimary at read
  split at read
  · rename_i opening
    obtain ⟨⟨inner, s₁⟩, first, read⟩ := bind_eq_ok.1 read
    obtain ⟨s₂, closed, store⟩ := bind_eq_ok.1 read
    obtain ⟨ts, passed, reads, -⟩ := sound (n := .or) (by decide) sane first
    obtain ⟨closing, moved⟩ := ParseState.expect_eq_ok closed
    obtain ⟨passed', -, same⟩ := ParseState.tokens_of_advance (sane.suffix passed)
      (by rw [closing]; exact Kind.noConfusion) moved
    rw [← same] at reads
    obtain ⟨stream, whole⟩ := reads_group opening reads closing store
    refine ⟨ts ++ [s₁.stream.current], ?_, whole⟩
    rw [passed, passed', stream, List.append_assoc]
    rfl
  split at read
  · rename_i op found
    obtain ⟨⟨y, s₁⟩, first, store⟩ := bind_eq_ok.1 read
    obtain ⟨ts, passed, reads, -⟩ := sound (n := .unary) (by decide) sane first
    obtain ⟨stream, whole⟩ := reads_unary (UnaryOp.ofKind?_eq_some_iff.1 found) reads store
    exact ⟨ts, by rw [passed, stream], whole⟩
  · obtain ⟨value, accepted, store⟩ := bind_eq_ok.1 read
    obtain ⟨denotes, fits⟩ := Literal.denotes_of_ofToken shapes accepted
    obtain ⟨stream, whole⟩ := reads_literal denotes fits store
    exact ⟨[], by rw [stream]; rfl, whole⟩

/-- No operand starts with the end of the source. -/
theorem kind_ne_of_readPrimary {t : Token} {s s' : ParseState} {x : Operand}
    (read : readPrimary limits operand t s = .ok (x, s')) : t.kind ≠ .endOfSource := by
  intro ends
  unfold readPrimary at read
  rw [if_neg (by rw [ends]; exact Kind.noConfusion), ends] at read
  obtain ⟨value, accepted, -⟩ := bind_eq_ok.1 read
  unfold Literal.ofToken at accepted
  rw [ends] at accepted
  cases accepted

/-- The loop over operators, by induction on its turns. The operand on the left is of a stratum
that no operator in sight is tighter than, so it can be loosened to the operator's stratum. -/
theorem sound_climb (sound : Sound limits nesting operand) {n : Stratum} {a : Arena} :
    ∀ {turns : Nat} {k : Stratum} {ls : List Token} {left x : Operand} {s s' : ParseState},
      s.stream.Sane → s.stream.rest.length ≤ turns → n.rank ≤ k.rank →
      Reads limits (nesting + 1) k ls a left s.arena → s.stream.current.Weaker (k.rank + 1) →
      climb limits operand n.rank turns left s = .ok (x, s') →
      ∃ ts, s.stream.tokens = ts ++ s'.stream.tokens ∧
        Reads limits (nesting + 1) n (ls ++ ts) a x s'.arena ∧ s'.stream.current.Weaker n.rank := by
  intro turns
  induction turns with
  | zero =>
    intro k ls left x s s' sane short tight reads weaker read
    cases read
    refine ⟨[], rfl, by rw [List.append_nil]; exact reads.lower tight, ?_⟩
    -- No token is left but the end of the source, which is no operator.
    obtain ⟨last, found, ends⟩ := sane.ends
    rw [TokenStream.tokens, List.eq_nil_of_length_eq_zero (Nat.le_zero.1 short)] at found
    obtain rfl : s.stream.current = last := Option.some.inj found
    intro op named
    rw [ends] at named
    cases named
  | succ turns ih =>
    intro k ls left x s s' sane short tight reads weaker read
    unfold climb at read
    dsimp only at read
    split at read
    · rename_i none
      cases read
      refine ⟨[], rfl, by rw [List.append_nil]; exact reads.lower tight, fun op named => ?_⟩
      rw [none] at named
      cases named
    rename_i op found
    split at read
    · rename_i weak
      cases read
      refine ⟨[], rfl, by rw [List.append_nil]; exact reads.lower tight, fun op' named => ?_⟩
      rw [found] at named
      cases named
      exact weak
    · rename_i strong
      obtain ⟨s₁, moved, read⟩ := bind_eq_ok.1 read
      obtain ⟨⟨right, s₂⟩, second, read⟩ := bind_eq_ok.1 read
      obtain ⟨⟨joined, s₃⟩, store, read⟩ := bind_eq_ok.1 read
      have named := BinaryOp.ofKind?_eq_some_iff.1 found
      have below := weaker op found
      have limit := op.strength_le
      have rank := op.strength_eq
      obtain ⟨passed, sane₁, same⟩ := ParseState.tokens_of_advance sane
        (by rw [named]; cases op <;> exact Kind.noConfusion) moved
      rw [← op.rank_next] at second
      obtain ⟨rs, passed', reads', weaker'⟩ := sound (by rw [op.rank_next]; omega) sane₁ second
      have sane₂ := sane₁.suffix passed'
      have loosened := reads.lower (m := op.stratum) (by omega)
      rw [← same] at loosened
      obtain ⟨stream, whole⟩ := reads_binary loosened named reads' store
      rw [op.rank_next, rank] at weaker'
      have counted := congrArg List.length (passed.trans (congrArg _ passed'))
      simp only [TokenStream.tokens, List.length_cons, List.length_append] at counted
      have fewer : s₂.stream.rest.length ≤ turns := by omega
      change s₃.stream = s₂.stream at stream
      rw [← stream] at passed' sane₂ fewer weaker'
      obtain ⟨ts, passed'', reads'', weaker''⟩ :=
        ih sane₂ fewer (by omega) whole weaker' read
      refine ⟨s.stream.current :: (rs ++ ts), ?_, ?_, weaker''⟩
      · rw [passed, passed', passed'', List.cons_append, List.append_assoc]
      · rw [← List.cons_append, ← List.append_assoc]
        exact reads''

end

/-- The reader of operands, by induction on the nesting that is left. -/
theorem sound_readOperand (limits : ParseLimits) :
    ∀ nesting, Sound limits nesting (readOperand limits nesting) := by
  intro nesting
  induction nesting with
  | zero =>
    intro n s s' x _ _ read
    cases read
  | succ nesting ih =>
    intro n s s' x loose sane read
    unfold readOperand at read
    obtain ⟨s₁, moved, read⟩ := bind_eq_ok.1 read
    obtain ⟨⟨left, s₂⟩, first, read⟩ := bind_eq_ok.1 read
    have shapes := sane.shapes _ (List.mem_cons_self ..)
    obtain ⟨passed, sane₁, same⟩ :=
      ParseState.tokens_of_advance sane (kind_ne_of_readPrimary first) moved
    obtain ⟨ts, passed', reads⟩ := sound_readPrimary ih sane₁ shapes first
    have unary : s₂.stream.current.Weaker (Stratum.unary.rank + 1) :=
      fun op _ => Nat.lt_of_le_of_lt op.strength_le (by decide)
    obtain ⟨us, passed'', reads', weaker⟩ :=
      sound_climb ih (sane₁.suffix passed') (Nat.le_refl _) (k := .unary) loose reads unary read
    refine ⟨s.stream.current :: (ts ++ us), ?_, ?_, weaker⟩
    · rw [passed, passed', passed'', List.cons_append, List.append_assoc]
    · rw [← same, ← List.cons_append]
      exact reads'

end Pseudocode
