import Pseudocode.Proofs.Expr.Viability
/-!
# The first problem is reported

A source that is no expression has a first token that no expression goes on with, and that token is
what the parser reports, if the limits do not stop it before. There is one exception: where an
operand should start, the token behind has to be in sight before the one in front of it is looked
at, and if it is a fault then the fault is reported.

* `Position.report`: the report on a token that may not stand where it does;
* `Fails`: the report on the first such token of a stream;
* `explained_readOperand`: the errors of a reader, by induction on the nesting that is left;
* `parse_first_problem`: the errors of the parser.
-/
namespace Pseudocode

/-! ## Reports -/

/-- Is it a limit that is complained of, and not the token? -/
def Complaint.isLimit : Complaint → Bool
  | .nestedTooDeeply | .tooComplex => true
  | _ => false

def ParseError.isLimit : ParseError → Bool
  | .lexical _ _ => false
  | .atToken c _ _ | .atEnd c _ => c.isLimit

theorem Complaint.isLimit_about (c : Complaint) (t : Token) : (c.about t).isLimit = c.isLimit := by
  unfold about
  split <;> rfl

/-- The report on what is no token. -/
def Token.fault? (t : Token) : Option ParseError :=
  match t.kind with
  | .fault f => some (.lexical f t.line)
  | _ => none

namespace Position

/-- What is wrong with a token that may not stand here. -/
def complaint : Position → Token → Complaint
  | operand _, t => if t.kind = .integer then .integerOutOfRange else .expectedExpression
  | operator (_ + 1), _ => .unclosedParenthesis
  | operator 0, _ | finished, _ => .expectedEnd

/-- The fault behind a token in the place of an operand. It is in sight before the token is looked
at. -/
def ahead? : Position → List Token → Option ParseError
  | operand _, us => us.head?.bind Token.fault?
  | _, _ => none

/-- The report on a token that may not stand here, with the tokens behind it. -/
def report (p : Position) (t : Token) (us : List Token) : ParseError :=
  (t.fault?.or (p.ahead? us)).getD ((p.complaint t).about t)

end Position

/-- The error is the report on the first of the tokens that may not stand where it does. -/
def Fails (p : Position) (tokens : List Token) (e : ParseError) : Prop :=
  ∃ ts t us q, tokens = ts ++ t :: us ∧ p.run ts = some q ∧ q.step t = none ∧ e = q.report t us

theorem Fails.behind {p q : Position} {ts us : List Token} {e : ParseError} (fails : Fails q us e)
    (led : p.run ts = some q) : Fails p (ts ++ us) e := by
  obtain ⟨front, t, back, r, rfl, before, none, report⟩ := fails
  refine ⟨ts ++ front, t, back, r, (List.append_assoc ..).symm, ?_, none, report⟩
  rw [Position.run_of_append led, before]

theorem fails_here {p : Position} {t : Token} (none : p.step t = none) (us : List Token) :
    Fails p (t :: us) (p.report t us) :=
  ⟨[], t, us, p, rfl, rfl, none, rfl⟩

theorem kind_of_fault? {t : Token} {e : ParseError} (fault : t.fault? = some e) :
    ∃ f, t.kind = .fault f := by
  unfold Token.fault? at fault
  split at fault
  · rename_i f kind
    exact ⟨f, kind⟩
  · cases fault

theorem fault?_eq_none {t : Token} (real : t.kind.isFault = false) : t.fault? = none := by
  unfold Token.fault?
  split
  · rename_i f kind
    rw [kind] at real
    cases real
  · rfl

/-- A fault may stand nowhere. -/
theorem step_fault {t : Token} {e : ParseError} (fault : t.fault? = some e) (p : Position) :
    p.step t = none := by
  obtain ⟨f, kind⟩ := kind_of_fault? fault
  cases led : p.step t with
  | none => rfl
  | some q =>
    cases takes_of_step led with
    | leftParen other | rightParen other | endOfSource other =>
      rw [kind] at other
      cases other
    | @unary _ op other | @binary _ op other =>
      rw [kind] at other
      cases op <;> cases other
    | literal accepted =>
      unfold Literal.ofToken at accepted
      rw [kind] at accepted
      cases accepted

theorem fails_fault {t : Token} {e : ParseError} (fault : t.fault? = some e) (p : Position)
    (us : List Token) : Fails p (t :: us) e := by
  have fails := fails_here (step_fault fault p) us
  rwa [Position.report, fault] at fails

/-! ## Moving on -/

namespace TokenStream
variable {s s' : TokenStream}

/-- The token in sight is no fault. -/
def Awake (s : TokenStream) : Prop := s.current.kind.isFault = false

theorem advance_eq_error {e : ParseError} (failed : s.advance = .error e) :
    ∃ u us, s.rest = u :: us ∧ u.fault? = some e := by
  unfold advance at failed
  split at failed
  · cases failed
  · rename_i u us rest
    split at failed
    · rename_i f kind
      cases failed
      refine ⟨u, us, rest, ?_⟩
      rw [Token.fault?, kind]
    · cases failed

theorem Awake.advance (awake : s.Awake) (moved : s.advance = .ok s') : s'.Awake := by
  unfold TokenStream.advance at moved
  split at moved
  · cases moved
    exact awake
  · rename_i u us rest
    split at moved
    · cases moved
    · rename_i other
      cases moved
      rw [Awake]
      cases kind : u.kind with
      | fault f => exact absurd kind (other f)
      | _ => rfl

end TokenStream

namespace ParseState
variable {s s' : ParseState} {limits : ParseLimits} {t : Token} {payload : Payload} {expr : Expr}
  {height : Nat} {x : Operand} {e : ParseError}

theorem advance_eq_error (failed : s.advance = .error e) :
    ∃ u us, s.stream.rest = u :: us ∧ u.fault? = some e := by
  rw [advance] at failed
  rcases bind_eq_error.1 failed with failed | ⟨stream, -, impossible⟩
  · exact TokenStream.advance_eq_error failed
  · cases impossible

theorem store_eq_ok (stored : s.store limits t payload expr height = .ok (x, s')) :
    s'.stream = s.stream ∧ x.height = height := by
  unfold store at stored
  split at stored
  · cases stored
  · cases stored
    exact ⟨rfl, rfl⟩

theorem store_eq_error (failed : s.store limits t payload expr height = .error e) :
    e.isLimit = true ∧ limits.height < height := by
  unfold store at failed
  split at failed
  · rename_i high
    cases failed
    exact ⟨Complaint.isLimit_about _ t, high⟩
  · cases failed

end ParseState

/-! ## What every move keeps, reading keeps -/

/-- What reading starts with holds where it ends. -/
def Keeps (P : TokenStream → Prop) (operand : OperandReader) : Prop :=
  ∀ {strength : Nat} {s s' : ParseState} {x : Operand}, operand strength s = .ok (x, s') →
    P s.stream → P s'.stream

section
variable {P : TokenStream → Prop} {limits : ParseLimits} {operand : OperandReader}
  (moves : ∀ {s s' : TokenStream}, P s → s.advance = .ok s' → P s')
include moves

theorem keeps_readPrimary (keeps : Keeps P operand) {t : Token} {s s' : ParseState} {x : Operand}
    (read : readPrimary limits operand t s = .ok (x, s')) (here : P s.stream) : P s'.stream := by
  unfold readPrimary at read
  split at read
  · obtain ⟨⟨inner, s₁⟩, first, read⟩ := bind_eq_ok.1 read
    obtain ⟨s₂, closed, stored⟩ := bind_eq_ok.1 read
    obtain ⟨-, moved⟩ := ParseState.expect_eq_ok closed
    rw [(ParseState.store_eq_ok stored).1]
    exact moves (keeps first here) (ParseState.advance_eq_ok moved).1
  split at read
  · obtain ⟨⟨y, s₁⟩, first, stored⟩ := bind_eq_ok.1 read
    rw [(ParseState.store_eq_ok stored).1]
    exact keeps first here
  · obtain ⟨value, -, stored⟩ := bind_eq_ok.1 read
    rw [(ParseState.store_eq_ok stored).1]
    exact here

theorem keeps_climb (keeps : Keeps P operand) {strength turns : Nat} :
    ∀ {left x : Operand} {s s' : ParseState},
      climb limits operand strength turns left s = .ok (x, s') → P s.stream → P s'.stream := by
  induction turns with
  | zero =>
    intro left x s s' read here
    cases read
    exact here
  | succ turns ih =>
    intro left x s s' read here
    unfold climb at read
    dsimp only at read
    split at read
    · cases read
      exact here
    split at read
    · cases read
      exact here
    · obtain ⟨s₁, moved, read⟩ := bind_eq_ok.1 read
      obtain ⟨⟨right, s₂⟩, second, read⟩ := bind_eq_ok.1 read
      obtain ⟨⟨joined, s₃⟩, stored, read⟩ := bind_eq_ok.1 read
      have there := keeps second (moves here (ParseState.advance_eq_ok moved).1)
      exact ih read ((ParseState.store_eq_ok stored).1 ▸ there)

theorem keeps_readOperand : ∀ nesting, Keeps P (readOperand limits nesting) := by
  intro nesting
  induction nesting with
  | zero =>
    intro strength s s' x read
    cases read
  | succ nesting ih =>
    intro strength s s' x read here
    unfold readOperand at read
    obtain ⟨s₁, moved, read⟩ := bind_eq_ok.1 read
    obtain ⟨⟨left, s₂⟩, first, read⟩ := bind_eq_ok.1 read
    have there := moves here (ParseState.advance_eq_ok moved).1
    exact keeps_climb moves ih read (keeps_readPrimary moves ih first there)

end

/-! ## Errors explained -/

/-- What there is to say of an error: it is the report on the first token that may not stand where
it does, or a limit was met, and `narrow` tells how. -/
inductive Explains (narrow : Prop) (p : Position) (tokens : List Token) (e : ParseError) : Prop
  | problem (fails : Fails p tokens e)
  | limit (limit : e.isLimit = true) (small : narrow)

/-- The limits are less than that many tokens may need. -/
def Narrow (limits : ParseLimits) (nesting count : Nat) : Prop :=
  nesting < count ∨ limits.height < count

theorem Explains.behind {narrow narrow' : Prop} {p q : Position} {ts us : List Token}
    {e : ParseError} (explains : Explains narrow q us e) (led : p.run ts = some q)
    (wider : narrow → narrow') : Explains narrow' p (ts ++ us) e := by
  cases explains with
  | problem fails => exact .problem (fails.behind led)
  | limit limit small => exact .limit limit (wider small)

/-- A tree is no higher than it has tokens. -/
theorem Derives.height_le {n : Stratum} {ts : List Token} {e : Expr} (derived : Derives n ts e) :
    e.height ≤ ts.length := by
  induction derived with
  | literal denotes => exact Nat.le_refl 1
  | group opening inner closing ih =>
    simp only [Expr.height, List.length_cons, List.length_append, List.length_nil]
    omega
  | unary named operand ih =>
    simp only [Expr.height, List.length_cons]
    omega
  | binary left named right ihl ihr =>
    simp only [Expr.height, List.length_cons, List.length_append]
    omega
  | tighter inner ih => exact ih

/-- What was read leads behind the operand, which is no higher than it has tokens. -/
theorem Reads.led {limits : ParseLimits} {nesting : Nat} {n : Stratum} {ts : List Token}
    {a b : Arena} {x : Operand} (reads : Reads limits nesting n ts a x b) (opened : Nat) :
    (Position.operand opened).run ts = some (.operator opened) ∧ x.height ≤ ts.length :=
  ⟨reads.derived.run reads.fits opened, reads.stored.height ▸ reads.derived.height_le⟩

section
variable {narrow : Prop} {s : ParseState} {e : ParseError}

/-- Moving on from a token that may stand here fails at a fault behind it. -/
theorem explains_advance {p q : Position} (led : p.step s.stream.current = some q)
    (failed : s.advance = .error e) : Explains narrow p s.stream.tokens e := by
  obtain ⟨u, us, rest, fault⟩ := ParseState.advance_eq_error failed
  rw [TokenStream.tokens, rest]
  exact .problem ((fails_fault fault q us).behind (Position.run_cons led []))

/-- In the place of an operand the fault is reported before the token in front of it is looked
at. -/
theorem explains_advance_operand (awake : s.stream.Awake) (opened : Nat)
    (failed : s.advance = .error e) : Explains narrow (.operand opened) s.stream.tokens e := by
  cases led : (Position.operand opened).step s.stream.current with
  | some q => exact explains_advance led failed
  | none =>
    obtain ⟨u, us, rest, fault⟩ := ParseState.advance_eq_error failed
    have fails := fails_here led (u :: us)
    rw [Position.report, fault?_eq_none awake, Position.ahead?, List.head?_cons, Option.bind_some,
      fault] at fails
    rw [TokenStream.tokens, rest]
    exact .problem fails

/-- The kind of token that closes an expression with so many open parentheses. -/
def Position.closer : Nat → Kind
  | 0 => .endOfSource
  | _ + 1 => .symbol .rightParen

/-- Behind an operand that is read to its end there is the token that closes, or a problem. -/
theorem explains_expect {opened : Nat} {c : Complaint} (awake : s.stream.Awake)
    (weaker : s.stream.current.Weaker 1)
    (wording : (Position.operator opened).complaint s.stream.current = c)
    (failed : s.expect (Position.closer opened) c = .error e) :
    Explains narrow (.operator opened) s.stream.tokens e := by
  rw [ParseState.expect, TokenStream.expect] at failed
  split at failed
  · rename_i kind
    cases opened with
    | zero => exact explains_advance (Position.step_endOfSource kind) failed
    | succ opened => exact explains_advance (Position.step_rightParen kind) failed
  · rename_i other
    cases failed
    have none : (Position.operator opened).step s.stream.current = none := by
      cases led : (Position.operator opened).step s.stream.current with
      | none => rfl
      | some q =>
        cases takes_of_step led with
        | @binary _ op named =>
          have strong := weaker op (BinaryOp.ofKind?_eq_some_iff.2 named)
          cases op <;> exact absurd strong (by decide)
        | rightParen kind | endOfSource kind => exact absurd kind other
    have fails := fails_here none s.stream.rest
    rw [Position.report, fault?_eq_none awake] at fails
    rw [← wording]
    exact .problem fails

end

/-! ## Readers -/

/-- The errors of the reader are explained, wherever an operand starts. -/
def Explained (limits : ParseLimits) (nesting : Nat) (operand : OperandReader) : Prop :=
  ∀ {n : Stratum} {s : ParseState} {e : ParseError} (opened : Nat), n.rank ≤ 7 → s.stream.Sane →
    s.stream.Awake → operand n.rank s = .error e →
      Explains (Narrow limits nesting s.stream.tokens.length) (.operand opened) s.stream.tokens e

theorem Narrow.mono {limits : ParseLimits} {nesting nesting' count count' : Nat}
    (narrow : Narrow limits nesting count) (more : count ≤ count')
    (ahead : nesting' + count ≤ nesting + count') : Narrow limits nesting' count' := by
  unfold Narrow at *
  omega

section
variable {limits : ParseLimits} {nesting : Nat} {operand : OperandReader}

/-- The literal that a token is not. -/
theorem fails_literal {t : Token} {e : ParseError} {opened : Nat} {us : List Token}
    (awake : t.kind.isFault = false) (quiet : us.head?.bind Token.fault? = none)
    (opening : t.kind ≠ .symbol .leftParen) (unary : UnaryOp.ofKind? t.kind = none)
    (refused : Literal.ofToken t = .error e) : Fails (.operand opened) (t :: us) e := by
  have none : (Position.operand opened).step t = none := by
    rw [Position.step, if_neg opening, unary, refused]
    rfl
  have report : (Position.operand opened).report t us = e := by
    rw [Position.report, fault?_eq_none awake, Position.ahead?, quiet, Position.complaint]
    unfold Literal.ofToken at refused
    split at refused
    · cases refused
    · cases refused
    · rename_i kind
      dsimp only at refused
      split at refused
      · cases refused
      · rw [if_pos kind]
        exact Except.error.inj refused
    · cases refused
    · cases refused
    · cases refused
    · rw [if_neg (by assumption)]
      exact Except.error.inj refused
  exact report ▸ fails_here none us

theorem explains_readPrimary (sound : Sound limits nesting operand)
    (keeps : Keeps TokenStream.Awake operand) (explained : Explained limits nesting operand)
    (opened : Nat) {t : Token} {s : ParseState} {e : ParseError} (sane : s.stream.Sane)
    (awake : s.stream.Awake) (real : t.kind.isFault = false)
    (failed : readPrimary limits operand t s = .error e) :
    Explains (Narrow limits (nesting + 1) (t :: s.stream.tokens).length) (.operand opened)
      (t :: s.stream.tokens) e := by
  unfold readPrimary at failed
  split at failed
  · rename_i opening
    have led := @Position.step_leftParen opened t opening
    rcases bind_eq_error.1 failed with first | ⟨⟨inner, s₁⟩, first, failed⟩
    · exact (explained (n := .or) (opened + 1) (by decide) sane awake first).behind
        (Position.run_cons led []) fun narrow => narrow.mono (Nat.le_succ _) (by simp; omega)
    obtain ⟨ts, passed, reads, weaker⟩ := sound (n := .or) (by decide) sane first
    obtain ⟨there, low⟩ := reads.led (opened + 1)
    rcases bind_eq_error.1 failed with closed | ⟨s₂, -, failed⟩
    · have explains := @explains_expect (Narrow limits (nesting + 1) (t :: s.stream.tokens).length)
        s₁ e (opened + 1) _ (keeps first awake) weaker rfl closed
      rw [passed]
      exact explains.behind ((Position.run_cons led ts).trans there) (passed ▸ id)
    · obtain ⟨limit, high⟩ := ParseState.store_eq_error failed
      refine .limit limit (.inr ?_)
      rw [passed, List.length_cons, List.length_append]
      omega
  split at failed
  · rename_i op found
    have led := @Position.step_unary opened t op (UnaryOp.ofKind?_eq_some_iff.1 found)
    rcases bind_eq_error.1 failed with first | ⟨⟨y, s₁⟩, first, failed⟩
    · exact (explained (n := .unary) opened (by decide) sane awake first).behind
        (Position.run_cons led []) fun narrow => narrow.mono (Nat.le_succ _) (by simp; omega)
    · obtain ⟨ts, passed, reads, -⟩ := sound (n := .unary) (by decide) sane first
      have low := (reads.led opened).2
      obtain ⟨limit, high⟩ := ParseState.store_eq_error failed
      refine .limit limit (.inr ?_)
      rw [passed, List.length_cons, List.length_append]
      omega
  · rename_i opening _ none
    rcases bind_eq_error.1 failed with refused | ⟨value, -, failed⟩
    · exact .problem (fails_literal real (fault?_eq_none awake) opening none refused)
    · obtain ⟨limit, high⟩ := ParseState.store_eq_error failed
      exact .limit limit (.inr (Nat.lt_of_lt_of_le high (Nat.succ_le_succ (Nat.zero_le _))))

/-- The loop over operators, by induction on its turns. The height of the operand on the left and
the tokens that are left are together no more than the tokens there were. -/
theorem explains_climb (sound : Sound limits nesting operand)
    (keeps : Keeps TokenStream.Awake operand) (explained : Explained limits nesting operand)
    (opened count strength : Nat) : ∀ {turns : Nat} {left : Operand} {s : ParseState}
      {e : ParseError}, s.stream.Sane → s.stream.Awake →
      left.height + s.stream.tokens.length ≤ count →
      climb limits operand strength turns left s = .error e →
      Explains (Narrow limits (nesting + 1) count) (.operator opened) s.stream.tokens e := by
  intro turns
  induction turns with
  | zero =>
    intro left s e _ _ _ failed
    cases failed
  | succ turns ih =>
    intro left s e sane awake few failed
    unfold climb at failed
    dsimp only at failed
    split at failed
    · cases failed
    rename_i op found
    split at failed
    · cases failed
    have named := BinaryOp.ofKind?_eq_some_iff.1 found
    have led := @Position.step_binary opened _ op named
    rcases bind_eq_error.1 failed with stuck | ⟨s₁, moved, failed⟩
    · exact explains_advance led stuck
    have limit := op.strength_le
    obtain ⟨passed, sane₁, -⟩ := ParseState.tokens_of_advance sane
      (by rw [named]; cases op <;> exact Kind.noConfusion) moved
    have awake₁ := awake.advance (ParseState.advance_eq_ok moved).1
    rw [passed] at few ⊢
    rw [← op.rank_next] at failed
    have tight : op.stratum.next.rank ≤ 7 := by rw [op.rank_next]; omega
    rw [List.length_cons] at few
    rcases bind_eq_error.1 failed with second | ⟨⟨right, s₂⟩, second, failed⟩
    · exact (explained opened tight sane₁ awake₁ second).behind (Position.run_cons led [])
        fun narrow => narrow.mono (by omega) (by omega)
    obtain ⟨rs, passed', reads, -⟩ := sound tight sane₁ second
    obtain ⟨there, low⟩ := reads.led opened
    rw [passed', List.length_append] at few
    rcases bind_eq_error.1 failed with high | ⟨⟨joined, s₃⟩, stored, failed⟩
    · obtain ⟨limit, high⟩ := ParseState.store_eq_error high
      dsimp only at high low
      exact .limit limit (.inr (by omega))
    · obtain ⟨stream, height⟩ := ParseState.store_eq_ok stored
      dsimp only at height low
      have sane₂ := sane₁.suffix passed'
      have awake₂ := keeps second awake₁
      -- the operands on both sides become the one on the left of the next turn
      change s₃.stream = s₂.stream at stream
      rw [← stream] at sane₂ awake₂ few passed'
      have explains := ih sane₂ awake₂ (by rw [height]; omega) failed
      rw [passed']
      exact explains.behind ((Position.run_cons led rs).trans there) id

/-- The end of the source is taken for a literal, and is none. -/
theorem ofToken_of_endOfSource {t : Token} {s : ParseState} {e : ParseError}
    (ends : t.kind = .endOfSource) (failed : readPrimary limits operand t s = .error e) :
    Literal.ofToken t = .error e := by
  have refused : Literal.ofToken t = .error (Complaint.expectedExpression.about t) := by
    unfold Literal.ofToken
    rw [ends]
  unfold readPrimary at failed
  rw [if_neg (by rw [ends]; exact Kind.noConfusion), ends] at failed
  rcases bind_eq_error.1 failed with same | ⟨value, accepted, -⟩
  · exact same
  · rw [refused] at accepted
    cases accepted

end

/-- What comes into sight is no fault. -/
theorem TokenStream.quiet_of_advance {s s' : TokenStream} (moved : s.advance = .ok s') :
    s.rest.head?.bind Token.fault? = none := by
  unfold TokenStream.advance at moved
  split at moved
  · rename_i rest
    rw [rest]
    rfl
  · rename_i u us rest
    rw [rest, List.head?_cons, Option.bind_some]
    split at moved
    · cases moved
    · rename_i other
      unfold Token.fault?
      split
      · rename_i f kind
        exact absurd kind (other f)
      · rfl

/-- The errors of a reader of operands, by induction on the nesting that is left. -/
theorem explained_readOperand (limits : ParseLimits) :
    ∀ nesting, Explained limits nesting (readOperand limits nesting) := by
  intro nesting
  induction nesting with
  | zero =>
    intro n s e opened _ _ _ failed
    cases failed
    exact .limit (Complaint.isLimit_about _ _) (.inl (Nat.succ_pos _))
  | succ nesting ih =>
    intro n s e opened loose sane awake failed
    have sound : Sound limits nesting _ := sound_readOperand limits nesting
    have keeps : Keeps TokenStream.Awake (readOperand limits nesting) :=
      keeps_readOperand (fun awake moved => awake.advance moved) nesting
    unfold readOperand at failed
    rcases bind_eq_error.1 failed with stuck | ⟨s₁, moved, failed⟩
    · exact explains_advance_operand awake opened stuck
    obtain ⟨step, -⟩ := ParseState.advance_eq_ok moved
    have awake₁ := awake.advance step
    by_cases ends : s.stream.current.kind = .endOfSource
    -- the stream stays where it ends, so the tokens are not one fewer here
    · rcases bind_eq_error.1 failed with first | ⟨⟨left, s₂⟩, first, -⟩
      · have refused := ofToken_of_endOfSource ends first
        exact .problem (fails_literal awake (TokenStream.quiet_of_advance step)
          (by rw [ends]; exact Kind.noConfusion) (by rw [ends]; rfl) refused)
      · exact absurd ends (kind_ne_of_readPrimary first)
    obtain ⟨passed, sane₁, -⟩ := ParseState.tokens_of_advance sane ends moved
    rw [passed]
    rcases bind_eq_error.1 failed with first | ⟨⟨left, s₂⟩, first, failed⟩
    · exact explains_readPrimary sound keeps ih opened sane₁ awake₁ awake first
    · have shapes := sane.shapes _ (List.mem_cons_self ..)
      obtain ⟨ts, passed', reads⟩ := sound_readPrimary sound sane₁ shapes first
      have awake₂ := keeps_readPrimary (fun awake moved => awake.advance moved) keeps first awake₁
      obtain ⟨there, low⟩ := reads.led opened
      have few : left.height + s₂.stream.tokens.length ≤
          (s.stream.current :: s₁.stream.tokens).length := by
        rw [passed', List.length_cons, List.length_append]
        rw [List.length_cons] at low
        omega
      have explains := explains_climb sound keeps ih opened _ n.rank (sane₁.suffix passed') awake₂
        few failed
      rw [passed'] at explains ⊢
      exact explains.behind there id

/-! ## Sources -/

theorem isLimit_of_fault? {t : Token} {e : ParseError} (fault : t.fault? = some e) :
    e.isLimit = false := by
  unfold Token.fault? at fault
  split at fault <;> cases fault
  rfl

/-- No report is of a limit. -/
theorem Position.isLimit_report (p : Position) (t : Token) (us : List Token) :
    (p.report t us).isLimit = false := by
  have wording : (p.complaint t).isLimit = false := by
    unfold complaint
    split
    · split <;> rfl
    all_goals rfl
  rw [report]
  cases here : t.fault? with
  | some e => exact isLimit_of_fault? here
  | none =>
    cases behind : p.ahead? us with
    | none => exact (Complaint.isLimit_about _ t).trans wording
    | some e =>
      unfold ahead? at behind
      split at behind
      · obtain ⟨u, -, fault⟩ := Option.bind_eq_some_iff.1 behind
        exact isLimit_of_fault? fault
      · cases behind

/-- The errors of the parser are explained from the first token on. -/
theorem explains_parse {limits : ParseLimits} {arena : Arena} {source : String} {e : ParseError}
    (failed : parse limits arena source = .error e) :
    Explains (Narrow limits limits.nesting (significant source).length) (.operand 0)
      (significant source) e := by
  unfold parse at failed
  rcases bind_eq_error.1 failed with stuck | ⟨s₁, moved, failed⟩
  · obtain ⟨u, us, rest, fault⟩ := ParseState.advance_eq_error stuck
    rw [show significant source = u :: us from rest]
    exact .problem (fails_fault fault _ us)
  obtain ⟨tokens, sane⟩ := sane_of_advance moved
  have asleep : (TokenStream.ofSource source).Awake := rfl
  have awake := asleep.advance (ParseState.advance_eq_ok moved).1
  rw [← tokens]
  have loose : Stratum.or.rank ≤ 7 := by decide
  rcases bind_eq_error.1 failed with first | ⟨⟨root, s₂⟩, first, failed⟩
  · exact explained_readOperand limits limits.nesting (n := .or) 0 loose sane awake first
  obtain ⟨ts, passed, reads, weaker⟩ :=
    sound_readOperand limits limits.nesting (n := .or) loose sane first
  have keeps : Keeps TokenStream.Awake (readOperand limits limits.nesting) :=
    keeps_readOperand (fun awake moved => awake.advance moved) limits.nesting
  rcases bind_eq_error.1 failed with unfinished | ⟨s₃, -, impossible⟩
  · have explains := @explains_expect (Narrow limits limits.nesting s₁.stream.tokens.length)
      s₂ e 0 _ (keeps first awake) weaker rfl unfinished
    rw [passed] at explains ⊢
    exact explains.behind (reads.led 0).1 id
  · cases impossible

/-- An operand may come next in the positions that wait for one. -/
theorem viable_oneToken_iff {ts : List Token} {p : Position}
    (shapes : ∀ t ∈ ts, t.kind.Shapes t.lexeme.toList)
    (led : (Position.operand 0).run ts = some p) :
    Viable (ts ++ [oneToken]) ↔ ∃ opened, p = .operand opened := by
  have one : oneToken.kind.Shapes oneToken.lexeme.toList := trivial
  rw [viable_iff (List.forall_mem_append.2 ⟨shapes, List.forall_mem_singleton.2 one⟩),
    Position.run_concat led]
  constructor
  · rintro ⟨q, taken⟩
    cases takes_of_step taken with
    | leftParen kind | unary named | literal accepted => exact ⟨_, rfl⟩
    | @binary _ op named => cases op <;> cases named
    | rightParen kind | endOfSource kind => cases kind
  · rintro ⟨opened, rfl⟩
    exact ⟨_, Position.step_literal oneToken_denotes fun _ => by decide⟩

/-- A source that is no expression is refused for the first token that no expression goes on with:
it is named with its line, or it is a fault. In the place of an operand a fault behind it is
reported in its stead. Only limits that are less than the number of tokens are met before that. -/
theorem parse_first_problem {limits : ParseLimits} {arena : Arena} {source : String}
    {e : ParseError} (failed : parse limits arena source = .error e) :
    (e.isLimit = true → Narrow limits limits.nesting (significant source).length) ∧
    (e.isLimit = false → ∃ ts t us p, significant source = ts ++ t :: us ∧
      Viable ts ∧ ¬ Viable (ts ++ [t]) ∧ (Position.operand 0).run ts = some p ∧
      (Viable (ts ++ [oneToken]) ↔ ∃ opened, p = .operand opened) ∧ e = p.report t us) := by
  cases explains_parse failed with
  | limit limit narrow =>
    exact ⟨fun _ => narrow, fun other => absurd (limit.symm.trans other) nofun⟩
  | problem fails =>
    obtain ⟨ts, t, us, p, whole, led, none, rfl⟩ := fails
    refine ⟨fun limit => absurd (limit.symm.trans (p.isLimit_report t us)) nofun, fun _ => ?_⟩
    have shapes : ∀ u ∈ ts, u.kind.Shapes u.lexeme.toList := by
      intro u inside
      have token : u ∈ significant source := by
        rw [whole]
        exact List.mem_append_left _ inside
      exact shapes_of_mem_tokenize (List.mem_filter.1 token).1
    refine ⟨ts, t, us, p, whole, (viable_iff shapes).2 ⟨p, led⟩, fun viable => ?_, led,
      viable_oneToken_iff shapes led, rfl⟩
    obtain ⟨q, longer⟩ := viable.run
    rw [Position.run_concat led, none] at longer
    cases longer

/-- The error at a number behind a closed operand, two lines down: the parenthesis is still open. -/
theorem parse_first_problem_unclosed :
    ∃ ts t us p, significant "(1\n\n2" = ts ++ t :: us ∧ Viable ts ∧ ¬ Viable (ts ++ [t]) ∧
      (Position.operand 0).run ts = some p ∧
      ParseError.atToken .unclosedParenthesis 3 "2" = p.report t us := by
  obtain ⟨-, problem⟩ := @parse_first_problem .standard .standard "(1\n\n2"
    (.atToken .unclosedParenthesis 3 "2") (by cbv)
  obtain ⟨ts, t, us, p, whole, viable, ends, led, -, report⟩ := problem rfl
  exact ⟨ts, t, us, p, whole, viable, ends, led, report⟩

/-- A sum does not start with its operator, but with a fault behind the operator it is the fault
that is reported, whatever the limits. -/
theorem parse_fault_ahead :
    (∃ t u us, significant "+ @" = t :: u :: us ∧ t.fault? = none ∧ ¬ Viable [t] ∧
      u.fault? = some (.lexical .unexpectedCharacter 1)) ∧
    ∀ nesting height arena, parse ⟨nesting + 1, height⟩ arena "+ @" =
      .error (.lexical .unexpectedCharacter 1) := by
  have tokens : significant "+ @" = [⟨.symbol .plus, "+", 0, 1⟩,
      ⟨.fault .unexpectedCharacter, "unexpected character", 2, 1⟩,
      ⟨.endOfSource, "", 3, 1⟩] := by cbv
  refine ⟨⟨_, _, _, tokens, rfl, fun viable => ?_, rfl⟩, fun nesting height arena => by cbv⟩
  obtain ⟨p, led⟩ := viable.run
  cases led

end Pseudocode
