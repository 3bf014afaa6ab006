import Pseudocode.Proofs.Expr.Recognition
/-!
# Viable prefixes

Which front parts of a stream of tokens can still become an expression is decided from left to right
with a count of the open parentheses, without a tree: an operand stands at the start, behind a
parenthesis, a prefix operator or an operator, and behind an operand there is an operator, a closing
parenthesis if one is open, or the end of the source.

* `Position.run`: where a front part leads, if it leads anywhere;
* `Derives.run`: the tokens of an expression lead from the place of an operand behind it;
* `Behind`, `Before`: what a front part that leads to a position is made of;
* `viable_iff`: the front parts that lead somewhere are those of accepted streams.
-/
namespace Pseudocode

/-! ## Accepted streams -/

/-- The tokens are those of an expression and the end of a source. -/
structure Accepted (ts : List Token) : Prop where
  fits : ∀ t ∈ ts, t.Fits
  derived : ∃ front last e, ts = front ++ [last] ∧ last.kind = .endOfSource ∧ Derives .or front e

/-- The tokens are a front part of some that are accepted. -/
def Viable (ts : List Token) : Prop := ∃ us, Accepted (ts ++ us)

theorem Viable.front {ts us : List Token} (viable : Viable (ts ++ us)) : Viable ts := by
  obtain ⟨vs, accepted⟩ := viable
  exact ⟨us ++ vs, List.append_assoc ts us vs ▸ accepted⟩

/-! ## Positions -/

/-- What may come next, and how many parentheses are open. -/
inductive Position where
  | operand (opened : Nat)
  | operator (opened : Nat)
  | finished
  deriving DecidableEq, Repr

namespace Position

/-- The position behind a token that closes an expression with so many open parentheses. -/
def close : Nat → Token → Option Position
  | 0, t => if t.kind = .endOfSource then some finished else none
  | opened + 1, t => if t.kind = .symbol .rightParen then some (operator opened) else none

/-- The position behind a token, if the token may stand here. -/
def step : Position → Token → Option Position
  | operand opened, t =>
    if t.kind = .symbol .leftParen then some (operand (opened + 1))
    else if (UnaryOp.ofKind? t.kind).isSome then some (operand opened)
    else (Literal.ofToken t).toOption.map fun _ => operator opened
  | operator opened, t =>
    if (BinaryOp.ofKind? t.kind).isSome then some (operand opened)
    else close opened t
  | finished, _ => none

/-- The position behind the tokens, if they may stand here. -/
def run (p : Position) : List Token → Option Position
  | [] => some p
  | t :: ts => (p.step t).bind (run · ts)

theorem run_append (p : Position) (ts us : List Token) :
    p.run (ts ++ us) = (p.run ts).bind (run · us) := by
  induction ts generalizing p with
  | nil => rfl
  | cons t ts ih =>
    rw [List.cons_append, run, run]
    cases p.step t with
    | none => rfl
    | some q => exact ih q

theorem run_of_append {p q : Position} {ts us : List Token} (led : p.run ts = some q) :
    p.run (ts ++ us) = q.run us := by
  rw [run_append, led]
  rfl

theorem run_cons {p q : Position} {t : Token} (led : p.step t = some q) (ts : List Token) :
    p.run (t :: ts) = q.run ts := by
  rw [run, led]
  rfl

/-- Behind some tokens and one more. -/
theorem run_concat {p q : Position} {ts : List Token} (led : p.run ts = some q) (t : Token) :
    p.run (ts ++ [t]) = q.step t := by
  rw [run_of_append led, run]
  cases q.step t <;> rfl

section
variable {opened : Nat} {t : Token}

theorem step_leftParen (kind : t.kind = .symbol .leftParen) :
    (operand opened).step t = some (operand (opened + 1)) :=
  if_pos kind

theorem step_unary {op : UnaryOp} (named : t.kind = op.kind) :
    (operand opened).step t = some (operand opened) := by
  have different : t.kind ≠ .symbol .leftParen := by
    rw [named]
    cases op <;> exact nofun
  rw [step, if_neg different, UnaryOp.ofKind?_eq_some_iff.2 named]
  rfl

theorem step_literal {value : Literal} (denotes : t.Denotes value) (fits : t.Fits) :
    (operand opened).step t = some (operator opened) := by
  obtain ⟨different, none, -⟩ := denotes.starts
  rw [step, if_neg different, none, denotes.ofToken fits]
  rfl

theorem step_binary {op : BinaryOp} (named : t.kind = op.kind) :
    (operator opened).step t = some (operand opened) := by
  rw [step, BinaryOp.ofKind?_eq_some_iff.2 named]
  rfl

theorem step_rightParen (kind : t.kind = .symbol .rightParen) :
    (operator (opened + 1)).step t = some (operator opened) := by
  have none : BinaryOp.ofKind? t.kind = none := by rw [kind]; rfl
  rw [step, none]
  exact if_pos kind

theorem step_endOfSource (kind : t.kind = .endOfSource) : (operator 0).step t = some finished := by
  have none : BinaryOp.ofKind? t.kind = none := by rw [kind]; rfl
  rw [step, none]
  exact if_pos kind

end

end Position

/-- The tokens of an expression lead from the place of an operand behind it. -/
theorem Derives.run {n : Stratum} {ts : List Token} {e : Expr} (derived : Derives n ts e)
    (fits : ∀ t ∈ ts, t.Fits) (opened : Nat) :
    (Position.operand opened).run ts = some (.operator opened) := by
  induction derived generalizing opened with
  | @literal t value denotes =>
    exact (Position.run_cons (Position.step_literal denotes (fits t (List.mem_singleton_self t)))
      []).trans rfl
  | @group t u ts e opening _ closing ih =>
    have inner := ih (fun v inside => fits v (by simp [inside])) (opened + 1)
    rw [Position.run_cons (Position.step_leftParen opening), Position.run_concat inner,
      Position.step_rightParen closing]
  | @unary t op ts e named _ ih =>
    rw [Position.run_cons (Position.step_unary named)]
    exact ih (fun v inside => fits v (List.mem_cons_of_mem _ inside)) opened
  | @binary t op ls rs l r _ named _ ihl ihr =>
    have left := ihl (fun v inside => fits v (by simp [inside])) opened
    rw [Position.run_of_append left, Position.run_cons (Position.step_binary named)]
    exact ihr (fun v inside => fits v (by simp [inside])) opened
  | tighter _ ih => exact ih fits opened

theorem Accepted.run {ts : List Token} (accepted : Accepted ts) :
    (Position.operand 0).run ts = some .finished := by
  obtain ⟨front, last, e, rfl, ends, derived⟩ := accepted.derived
  have led := derived.run (fun t inside => accepted.fits t (List.mem_append_left _ inside)) 0
  rw [Position.run_concat led, Position.step_endOfSource ends]

/-- A front part of accepted tokens leads somewhere. -/
theorem Viable.run {ts : List Token} (viable : Viable ts) :
    ∃ p, (Position.operand 0).run ts = some p := by
  obtain ⟨us, accepted⟩ := viable
  have led := accepted.run
  rw [Position.run_append] at led
  obtain ⟨p, front, -⟩ := Option.bind_eq_some_iff.1 led
  exact ⟨p, front⟩

/-! ## Front parts that lead somewhere -/

/-- The tokens end behind an operand, inside `opened` parentheses: behind the last of these there is
an expression, and any operand in place of it and its parenthesis ends inside one fewer. -/
def Behind : Nat → List Token → Prop
  | 0, ts => ∃ e, Derives .or ts e
  | opened + 1, ts => ∃ front t body e, ts = front ++ t :: body ∧ t.kind = .symbol .leftParen ∧
    Derives .or body e ∧ ∀ us x, Derives .unary us x → Behind opened (front ++ us)

/-- With any operand behind them, the tokens end behind an operand inside `opened` parentheses. -/
def Before (opened : Nat) (ts : List Token) : Prop :=
  ∀ us x, Derives .unary us x → Behind opened (ts ++ us)

/-- An operator and its operand behind an expression give an expression: where the operator binds
more tightly than the one on the left, they are taken by the operand on its right. -/
theorem Derives.extend {n : Stratum} {ts : List Token} {e : Expr} (derived : Derives n ts e)
    {op : BinaryOp} {t : Token} {us : List Token} {x : Expr} (loose : n.rank ≤ op.stratum.rank)
    (named : t.kind = op.kind) (right : Derives .unary us x) :
    ∃ e', Derives n (ts ++ t :: us) e' := by
  have next := op.rank_next
  have small := op.strength_le
  have rank := op.strength_eq
  have operand : Derives op.stratum.next us x :=
    right.lower (by rw [next]; exact Nat.succ_le_succ small)
  induction derived with
  | literal denotes | group opening inner closing | unary first operand =>
    have tight : Stratum.unary.rank = 7 ∧ Stratum.primary.rank = 8 := ⟨rfl, rfl⟩
    omega
  | @binary t' op' ls rs l r left named' right' ihl ihr =>
    by_cases same : op'.stratum.rank = op.stratum.rank
    · have stratum := Stratum.rank_injective same
      have whole : Derives op.stratum (ls ++ t' :: rs) (.binary t'.line op' l r) :=
        stratum ▸ .binary left named' right'
      rw [stratum]
      exact ⟨_, .binary whole named operand⟩
    · -- the operator on the left is looser, so its operand on the right is extended
      have next' := op'.rank_next
      have rank' := op'.strength_eq
      obtain ⟨r', longer⟩ := ihr (by omega)
      refine ⟨.binary t'.line op' l r', ?_⟩
      rw [List.append_assoc, List.cons_append]
      exact .binary left named' longer
  | @tighter m ts e inner ih =>
    by_cases same : m.rank = op.stratum.rank
    · have stratum := Stratum.rank_injective same
      rw [stratum] at inner ⊢
      exact ⟨_, .binary (.tighter inner) named operand⟩
    · have next' := Stratum.rank_next (n := m) (by omega)
      obtain ⟨e', longer⟩ := ih (by omega)
      exact ⟨e', .tighter longer⟩

/-- What a front part of tokens that leads to a position is made of. -/
def Position.Reached : Position → List Token → Prop
  | operand opened, ts => Before opened ts
  | operator opened, ts => Behind opened ts
  | finished, ts => ∃ front last e, ts = front ++ [last] ∧ last.kind = .endOfSource ∧
    Derives .or front e

/-- How a token leads from one position to another. -/
inductive Takes (t : Token) : Position → Position → Prop
  | leftParen {opened : Nat} (kind : t.kind = .symbol .leftParen) :
    Takes t (.operand opened) (.operand (opened + 1))
  | unary {opened : Nat} {op : UnaryOp} (named : t.kind = op.kind) :
    Takes t (.operand opened) (.operand opened)
  | literal {opened : Nat} {value : Literal} (accepted : Literal.ofToken t = .ok value) :
    Takes t (.operand opened) (.operator opened)
  | binary {opened : Nat} {op : BinaryOp} (named : t.kind = op.kind) :
    Takes t (.operator opened) (.operand opened)
  | rightParen {opened : Nat} (kind : t.kind = .symbol .rightParen) :
    Takes t (.operator (opened + 1)) (.operator opened)
  | endOfSource (kind : t.kind = .endOfSource) : Takes t (.operator 0) .finished

theorem takes_of_step {p q : Position} {t : Token} (led : p.step t = some q) : Takes t p q := by
  cases p with
  | operand opened =>
    rw [Position.step] at led
    split at led
    · rename_i kind
      cases led
      exact .leftParen kind
    split at led
    · rename_i found
      cases led
      obtain ⟨op, named⟩ := Option.isSome_iff_exists.1 found
      exact .unary (UnaryOp.ofKind?_eq_some_iff.1 named)
    · cases accepted : Literal.ofToken t with
      | error e =>
        rw [accepted] at led
        cases led
      | ok value =>
        rw [accepted] at led
        cases led
        exact .literal accepted
  | operator opened =>
    rw [Position.step] at led
    split at led
    · rename_i found
      cases led
      obtain ⟨op, named⟩ := Option.isSome_iff_exists.1 found
      exact .binary (BinaryOp.ofKind?_eq_some_iff.1 named)
    · cases opened <;> rw [Position.close] at led <;> split at led <;> cases led
      · rename_i kind
        exact .endOfSource kind
      · rename_i kind
        exact .rightParen kind
  | finished => cases led

theorem Behind.extend {opened : Nat} {ts : List Token} (behind : Behind opened ts) {op : BinaryOp}
    {t : Token} (named : t.kind = op.kind) : Before opened (ts ++ [t]) := by
  intro us x right
  rw [List.append_assoc, List.singleton_append]
  cases opened with
  | zero =>
    obtain ⟨e, derived⟩ := behind
    exact derived.extend op.stratum.or_rank_le named right
  | succ opened =>
    obtain ⟨front, v, body, e, rfl, opening, derived, before⟩ := behind
    obtain ⟨e', longer⟩ := derived.extend op.stratum.or_rank_le named right
    exact ⟨front, v, _, e', by rw [List.append_assoc, List.cons_append], opening, longer, before⟩

/-- A token that may stand in a position leads on. -/
theorem Position.Reached.step {p q : Position} {ts : List Token} {t : Token}
    (reached : p.Reached ts) (shapes : t.kind.Shapes t.lexeme.toList)
    (led : p.step t = some q) : q.Reached (ts ++ [t]) := by
  cases takes_of_step led with
  | leftParen kind =>
    exact fun us x operand => ⟨ts, t, us, x, by rw [List.append_assoc]; rfl, kind,
      operand.lower (by decide), reached⟩
  | unary named =>
    intro us x operand
    rw [List.append_assoc]
    exact reached _ _ (.unary named operand)
  | literal accepted =>
    exact reached _ _ (.tighter (.literal (Literal.denotes_of_ofToken shapes accepted).1))
  | binary named => exact Behind.extend reached named
  | rightParen kind =>
    obtain ⟨front, v, body, e, rfl, opening, derived, before⟩ := reached
    rw [List.append_assoc, List.cons_append]
    exact before _ _ (.tighter (.group opening derived kind))
  | endOfSource kind =>
    obtain ⟨e, derived⟩ := reached
    exact ⟨ts, t, e, rfl, kind, derived⟩

theorem Position.fits_of_step {p q : Position} {t : Token}
    (shapes : t.kind.Shapes t.lexeme.toList) (led : p.step t = some q) : t.Fits := by
  cases takes_of_step led with
  | literal accepted => exact (Literal.denotes_of_ofToken shapes accepted).2
  | leftParen kind | rightParen kind | endOfSource kind =>
    exact Token.fits_of_kind kind Kind.noConfusion
  | @unary _ op named | @binary _ op named =>
    exact Token.fits_of_kind named (by cases op <;> exact Kind.noConfusion)

/-- Where a front part of tokens leads, by induction on its length from the front. -/
theorem Position.Reached.run {p q : Position} {ts us : List Token} (reached : p.Reached ts)
    (shapes : ∀ t ∈ us, t.kind.Shapes t.lexeme.toList) (led : p.run us = some q) :
    q.Reached (ts ++ us) ∧ ∀ t ∈ us, t.Fits := by
  induction us generalizing p ts with
  | nil =>
    cases led
    exact ⟨(List.append_nil ts).symm ▸ reached, List.forall_mem_nil _⟩
  | cons t us ih =>
    obtain ⟨first, others⟩ := List.forall_mem_cons.1 shapes
    obtain ⟨middle, here, there⟩ := Option.bind_eq_some_iff.1 led
    obtain ⟨whole, fits⟩ := ih (reached.step first here) others there
    rw [List.append_assoc] at whole
    exact ⟨whole, List.forall_mem_cons.2 ⟨fits_of_step first here, fits⟩⟩

/-! ## Completions -/

/-- A literal, to complete what waits for an operand. -/
def oneToken : Token := ⟨.integer, "1", 0, 1⟩

theorem oneToken_denotes : oneToken.Denotes (.integer (Int64.ofNat (Decimal.value ['1']))) :=
  .integer rfl

/-- The tokens behind an operand that close all that is open. -/
def closing : Nat → List Token
  | 0 => [⟨.endOfSource, "", 0, 1⟩]
  | opened + 1 => ⟨.symbol .rightParen, ")", 0, 1⟩ :: closing opened

theorem fits_closing (opened : Nat) : ∀ t ∈ closing opened, t.Fits := by
  induction opened with
  | zero => simp [closing, Token.Fits]
  | succ opened ih => exact List.forall_mem_cons.2 ⟨nofun, ih⟩

theorem Behind.complete {opened : Nat} : ∀ {ts : List Token}, Behind opened ts →
    (∀ t ∈ ts, t.Fits) → Accepted (ts ++ closing opened) := by
  induction opened with
  | zero =>
    intro ts behind fits
    obtain ⟨e, derived⟩ := behind
    exact ⟨List.forall_mem_append.2 ⟨fits, fits_closing 0⟩, ts, _, e, rfl, rfl, derived⟩
  | succ opened ih =>
    intro ts behind fits
    have closed : Behind opened (ts ++ [⟨.symbol .rightParen, ")", 0, 1⟩]) :=
      @Position.Reached.step (.operator (opened + 1)) (.operator opened) ts _ behind trivial
        (Position.step_rightParen rfl)
    have whole := ih closed (List.forall_mem_append.2 ⟨fits, by simp [Token.Fits]⟩)
    rwa [List.append_assoc] at whole

/-- What leads to a position can be completed. -/
theorem Position.Reached.viable {p : Position} {ts : List Token} (reached : p.Reached ts)
    (fits : ∀ t ∈ ts, t.Fits) : Viable ts := by
  cases p with
  | operand opened =>
    have small : oneToken.Fits := fun _ => by decide
    have behind : Behind opened (ts ++ [oneToken]) :=
      reached _ _ (.tighter (.literal oneToken_denotes))
    have whole := behind.complete
      (List.forall_mem_append.2 ⟨fits, List.forall_mem_singleton.2 small⟩)
    rw [List.append_assoc] at whole
    exact ⟨_, whole⟩
  | operator opened => exact ⟨_, Behind.complete reached fits⟩
  | finished => exact ⟨[], by rw [List.append_nil]; exact ⟨fits, reached⟩⟩

/-- The front parts that lead somewhere are those of accepted streams. -/
theorem viable_iff {ts : List Token} (shapes : ∀ t ∈ ts, t.kind.Shapes t.lexeme.toList) :
    Viable ts ↔ ∃ p, (Position.operand 0).run ts = some p := by
  constructor
  · exact Viable.run
  · rintro ⟨p, led⟩
    have start : (Position.operand 0).Reached [] := fun us x operand =>
      ⟨x, operand.lower (by decide)⟩
    obtain ⟨reached, fits⟩ := start.run shapes led
    exact reached.viable fits

end Pseudocode
