import Mathlib
import Pseudocode.Proofs.Expr.Soundness
/-!
# The parser accepts the grammar and nothing else

Every expression that fits the limits is read: reading it gets to the loop over operators with the
expression as the operand on the left, whatever strength it was asked for and whatever stands
behind it that is no operator of a tighter stratum. The reader for the whole source then takes the
whole source, so the parser accepts just the expressions, each with its one derivation.

* `climb_eq_of_weaker`: where the loop ends;
* `Derives.readOperand`: an expression is read, by induction on its derivation;
* `parse_eq_ok_iff`: the parser and the grammar agree.
-/
namespace Pseudocode

/-! ## Steps that succeed -/

def Clean (ts : List Token) : Prop := ∀ t ∈ ts, t.kind.isFault = false

namespace ParseState
variable {s : ParseState} {t : Token} {ts : List Token}

/-- Moving on succeeds in front of a token that is no fault. -/
theorem advance_of_tokens (tokens : s.stream.tokens = t :: ts) (more : ts ≠ [])
    (clean : Clean ts) : ∃ s', s.advance = .ok s' ∧ s'.stream.tokens = ts := by
  obtain ⟨⟨current, rest⟩, arena⟩ := s
  cases tokens
  cases rest with
  | nil => exact absurd rfl more
  | cons u us =>
    have first := clean u (List.mem_cons_self ..)
    refine ⟨⟨⟨u, us⟩, arena⟩, ?_, rfl⟩
    unfold advance TokenStream.advance
    dsimp only
    split
    · rename_i f kind
      rw [kind] at first
      cases first
    · rfl

theorem expect_of_tokens {kind : Kind} (c : Complaint) (tokens : s.stream.tokens = t :: ts)
    (more : ts ≠ []) (clean : Clean ts) (seen : t.kind = kind) :
    ∃ s', s.expect kind c = .ok s' ∧ s'.stream.tokens = ts := by
  obtain ⟨s', moved, rest⟩ := advance_of_tokens tokens more clean
  have current : s.stream.current = t := (List.cons.inj tokens).1
  refine ⟨s', ?_, rest⟩
  rw [expect, TokenStream.expect, current, if_pos seen]
  exact moved

/-- Behind the last token there is the last token. -/
theorem expect_of_last {kind : Kind} (c : Complaint) (tokens : s.stream.tokens = [t])
    (seen : t.kind = kind) : s.expect kind c = .ok s := by
  obtain ⟨⟨current, rest⟩, arena⟩ := s
  cases tokens
  rw [expect, TokenStream.expect, if_pos seen]
  rfl

/-- Storing a node succeeds up to the limit of heights. -/
theorem store_of_le {limits : ParseLimits} (s : ParseState) (t : Token) (payload : Payload)
    (e : Expr) (height : Nat) (low : height ≤ limits.height) :
    ∃ x s', s.store limits t payload e height = .ok (x, s') ∧ s'.stream = s.stream ∧
      x.expr = e ∧ x.height = height := by
  unfold store
  rw [if_neg (Nat.not_lt.2 low)]
  exact ⟨_, _, rfl, rfl, rfl, rfl⟩

end ParseState

section
variable {limits : ParseLimits} {operand : OperandReader} {turns strength : Nat} {left : Operand}
  {s : ParseState}

/-- The loop over operators ends in front of a token that is no operator of its strength. -/
theorem climb_eq_of_weaker (weaker : s.stream.current.Weaker strength) :
    climb limits operand strength turns left s = .ok (left, s) := by
  cases turns with
  | zero => rfl
  | succ turns =>
    unfold climb
    dsimp only
    split
    · rfl
    · rename_i op found
      rw [if_pos (weaker op found)]

/-- The loop over operators takes an operator of its strength and what is read behind it. -/
theorem climb_eq_of_operator {op : BinaryOp} {s₁ s₂ s₃ : ParseState} {right joined : Operand}
    (named : s.stream.current.kind = op.kind) (strong : strength ≤ op.strength)
    (moved : s.advance = .ok s₁) (read : operand (op.strength + 1) s₁ = .ok (right, s₂))
    (store : s₂.store limits s.stream.current (.binary op left.id right.id)
      (.binary s.stream.current.line op left.expr right.expr)
      (max left.height right.height + 1) = .ok (joined, s₃)) :
    climb limits operand strength (turns + 1) left s =
      climb limits operand strength turns joined s₃ := by
  have found := BinaryOp.ofKind?_eq_some_iff.2 named
  rw [climb]
  dsimp only
  simp only [found, if_neg (Nat.not_lt.2 strong), moved, bind, Except.bind, read, store]

end

/-! ## Expressions are read -/

/-- Reading gets to the loop over operators with the expression on the left and the rest of the
tokens to go. -/
def Reaches (limits : ParseLimits) (nesting strength : Nat) (s : ParseState) (e : Expr)
    (rest : List Token) : Prop :=
  ∃ turns x s', s'.stream.tokens = rest ∧ rest.length ≤ turns + 1 ∧ x.expr = e ∧
    x.height = e.height ∧ readOperand limits (nesting + 1) strength s =
      climb limits (readOperand limits nesting) strength turns x s'

section
variable {limits : ParseLimits} {nesting strength : Nat} {s : ParseState} {e : Expr} {u : Token}
  {us : List Token}

/-- An operand is read to its end in front of a token that is no operator of the strength. -/
theorem Reaches.readOperand (reaches : Reaches limits nesting strength s e (u :: us))
    (weaker : u.Weaker strength) : ∃ x s', readOperand limits (nesting + 1) strength s =
      .ok (x, s') ∧ s'.stream.tokens = u :: us ∧ x.expr = e ∧ x.height = e.height := by
  obtain ⟨turns, x, s', tokens, -, expr, height, read⟩ := reaches
  rw [← (List.cons.inj tokens).1] at weaker
  rw [climb_eq_of_weaker weaker] at read
  exact ⟨x, s', read, tokens, expr, height⟩

/-- What is read of an operand starts with the token in sight. -/
theorem reaches_of_readPrimary {t : Token} {s₁ s' : ParseState} {x : Operand}
    (current : s.stream.current = t) (moved : s.advance = .ok s₁)
    (read : readPrimary limits (readOperand limits nesting) t s₁ = .ok (x, s'))
    (tokens : s'.stream.tokens = u :: us) (expr : x.expr = e) (height : x.height = e.height) :
    Reaches limits nesting strength s e (u :: us) := by
  refine ⟨s'.stream.rest.length, x, s', tokens, ?_, expr, height, ?_⟩
  · rw [← tokens]
    exact Nat.le_refl _
  rw [Pseudocode.readOperand]
  simp only [current, moved, bind, Except.bind, read]

end

theorem weaker_of_kind {t : Token} {k : Kind} (kind : t.kind = k)
    (none : BinaryOp.ofKind? k = none) (strength : Nat) : t.Weaker strength := by
  intro op found
  rw [kind, none] at found
  cases found

theorem weaker_of_named {t : Token} {op : BinaryOp} (named : t.kind = op.kind) :
    t.Weaker (op.strength + 1) := by
  intro op' found
  rw [named, BinaryOp.ofKind?_eq_some_iff.2 rfl] at found
  cases found
  exact Nat.lt_succ_self _

theorem Token.Weaker.mono {t : Token} {a b : Nat} (weaker : t.Weaker a) (le : a ≤ b) : t.Weaker b :=
  fun op found => Nat.lt_of_lt_of_le (weaker op found) le

/-- An expression is read, by induction on its derivation. -/
theorem Derives.reaches {limits : ParseLimits} {n : Stratum} {ts : List Token} {e : Expr}
    (derived : Derives n ts e) : ∀ {nesting strength : Nat} {s : ParseState} {u : Token}
      {us : List Token}, strength ≤ n.rank → e.depth ≤ nesting + 1 → e.height ≤ limits.height →
      (∀ t ∈ ts, t.Fits) → s.stream.tokens = ts ++ u :: us → Clean (ts ++ u :: us) →
      u.Weaker (n.rank + 1) → Reaches limits nesting strength s e (u :: us) := by
  induction derived with
  | @literal t value denotes =>
    intro nesting strength s u us loose deep high fits tokens clean weaker
    obtain ⟨s₁, moved, rest⟩ := ParseState.advance_of_tokens tokens (List.cons_ne_nil _ _)
      fun v inside => clean v (List.mem_cons_of_mem _ inside)
    obtain ⟨x, s', store, stream, expr, height⟩ :=
      s₁.store_of_le t (.literal value) (.literal t.line value) 1 high
    have accepted := denotes.ofToken (fits t (List.mem_singleton_self t))
    obtain ⟨different, none, -⟩ := denotes.starts
    refine reaches_of_readPrimary (List.cons.inj tokens).1 moved ?_ (stream ▸ rest) expr height
    unfold readPrimary
    rw [if_neg different, none]
    simp only [accepted, bind, Except.bind, store]
  | @group t v ts e opening _ closing ih =>
    intro nesting strength s u us loose deep high fits tokens clean weaker
    have inside : ∀ w ∈ ts, w ∈ t :: (ts ++ [v]) := fun w inside =>
      List.mem_cons_of_mem _ (List.mem_append_left _ inside)
    obtain ⟨nesting, rfl⟩ := Nat.exists_eq_add_one.2
      (Nat.lt_of_lt_of_le e.depth_pos (Nat.le_of_succ_le_succ deep))
    rw [List.cons_append, List.append_assoc] at tokens clean
    have behind : Clean (ts ++ ([v] ++ u :: us)) := fun w inside =>
      clean w (List.mem_cons_of_mem _ inside)
    obtain ⟨s₁, moved, rest⟩ := ParseState.advance_of_tokens tokens (by simp) behind
    have loose₁ : 1 ≤ Stratum.or.rank := Nat.le_refl _
    obtain ⟨y, s₂, first, rest₂, expr₂, height₂⟩ := (ih loose₁
      (Nat.le_of_succ_le_succ deep) (Nat.le_of_succ_le high) (fun w i => fits w (inside w i)) rest
      behind (weaker_of_kind closing rfl _)).readOperand (weaker_of_kind closing rfl 1)
    obtain ⟨s₃, closed, rest₃⟩ := ParseState.expect_of_tokens .unclosedParenthesis rest₂
      (List.cons_ne_nil _ _) (fun w inside => behind w
        (List.mem_append_right _ (List.mem_cons_of_mem _ inside))) closing
    obtain ⟨x, s', store, stream, expr, height⟩ := s₃.store_of_le t (.group y.id)
      (.group t.line y.expr) (y.height + 1) (by rw [height₂]; exact high)
    refine reaches_of_readPrimary (List.cons.inj tokens).1 moved ?_ (stream ▸ rest₃)
      (by rw [expr, expr₂]) (by rw [height, height₂]; rfl)
    unfold readPrimary
    rw [if_pos opening]
    simp only [first, bind, Except.bind, closed, store]
  | @unary t op ts e named _ ih =>
    intro nesting strength s u us loose deep high fits tokens clean weaker
    obtain ⟨nesting, rfl⟩ := Nat.exists_eq_add_one.2
      (Nat.lt_of_lt_of_le e.depth_pos (Nat.le_of_succ_le_succ deep))
    have behind : Clean (ts ++ u :: us) := fun w inside =>
      clean w (List.mem_cons_of_mem _ inside)
    obtain ⟨s₁, moved, rest⟩ := ParseState.advance_of_tokens tokens (by simp) behind
    -- No operator with two operands is as tight as one with one operand.
    have tight : u.Weaker 7 := fun op _ => Nat.lt_succ_of_le op.strength_le
    have loose₇ : 7 ≤ Stratum.unary.rank := Nat.le_refl _
    obtain ⟨y, s₂, first, rest₂, expr₂, height₂⟩ := (ih loose₇
      (Nat.le_of_succ_le_succ deep) (Nat.le_of_succ_le high)
      (fun w inside => fits w (List.mem_cons_of_mem _ inside)) rest behind
      weaker).readOperand tight
    obtain ⟨x, s', store, stream, expr, height⟩ := s₂.store_of_le t (.unary op y.id)
      (.unary t.line op y.expr) (y.height + 1) (by rw [height₂]; exact high)
    refine reaches_of_readPrimary (List.cons.inj tokens).1 moved ?_ (stream ▸ rest₂)
      (by rw [expr, expr₂]) (by rw [height, height₂]; rfl)
    have different : t.kind ≠ .symbol .leftParen := by
      rw [named]
      cases op <;> exact nofun
    unfold readPrimary
    rw [if_neg different, UnaryOp.ofKind?_eq_some_iff.2 named]
    simp only [first, bind, Except.bind, store]
  | @binary t op ls rs l r _ named _ ihl ihr =>
    intro nesting strength s u us loose deep high fits tokens clean weaker
    obtain ⟨deepL, deepR⟩ := Nat.max_le.1 deep
    obtain ⟨highL, highR⟩ := Nat.max_le.1 (Nat.le_of_succ_le high)
    rw [List.append_assoc, List.cons_append] at tokens clean
    have behind : Clean (rs ++ u :: us) := fun w inside =>
      clean w (List.mem_append_right _ (List.mem_cons_of_mem _ inside))
    have rank := op.strength_eq
    rw [← rank] at loose weaker
    obtain ⟨turns, x, s₁, tokens₁, short, expr₁, height₁, read⟩ := ihl (rank ▸ loose) deepL highL
      (fun w inside => fits w (List.mem_append_left _ inside)) tokens clean
      (rank ▸ weaker_of_named named)
    simp only [List.length_cons, List.length_append] at short
    obtain ⟨turns, rfl⟩ := Nat.exists_eq_add_one.2 (show 0 < turns by omega)
    obtain ⟨nesting, rfl⟩ := Nat.exists_eq_add_one.2
      (Nat.lt_of_lt_of_le r.depth_pos (Nat.le_of_succ_le_succ deepR))
    obtain ⟨s₂, moved, rest⟩ := ParseState.advance_of_tokens tokens₁ (by simp) behind
    have loose' : op.strength + 1 ≤ op.stratum.next.rank := Nat.le_of_eq op.rank_next.symm
    obtain ⟨y, s₃, second, rest₃, expr₂, height₂⟩ := (ihr loose'
      (Nat.le_of_succ_le_succ deepR) highR
      (fun w inside => fits w (List.mem_append_right _ (List.mem_cons_of_mem _ inside))) rest
      behind (weaker.mono (by rw [op.rank_next]; omega))).readOperand weaker
    obtain ⟨z, s', store, stream, expr, height⟩ := s₃.store_of_le t (.binary op x.id y.id)
      (.binary t.line op x.expr y.expr) (max x.height y.height + 1)
      (by rw [height₁, height₂]; exact high)
    have current : s₁.stream.current = t := (List.cons.inj tokens₁).1
    rw [← current] at named store
    refine ⟨turns, z, s', stream ▸ rest₃, ?_, by rw [expr, expr₁, expr₂], ?_, ?_⟩
    · rw [List.length_cons]
      omega
    · rw [height, height₁, height₂]
      rfl
    · rw [read, climb_eq_of_operator named loose moved second store]
  | @tighter n ts e _ ih =>
    intro nesting strength s u us loose deep high fits tokens clean weaker
    have rank := n.rank_le_next
    exact ih (Nat.le_trans loose rank) deep high fits tokens clean
      (weaker.mono (Nat.succ_le_succ rank))

/-! ## Sources -/

/-- The tokens of a source without its line ends. -/
def significant (source : String) : List Token :=
  (tokenize source).filter fun t => t.kind != .endOfLine

/-- The source holds the expression and nothing else, and the expression is within the limits. -/
structure Accepts (limits : ParseLimits) (source : String) (e : Expr) : Prop where
  clean : Clean (significant source)
  fits : ∀ t ∈ significant source, t.Fits
  derived : ∃ ts last, significant source = ts ++ [last] ∧ last.kind = .endOfSource ∧
    Derives .or ts e
  height : e.height ≤ limits.height
  depth : e.depth ≤ limits.nesting

/-- The end of the source is the last token and no other. -/
theorem significant_eq (source : String) : ∃ ts last, significant source = ts ++ [last] ∧
    last.kind = .endOfSource ∧ ∀ t ∈ ts, t.kind ≠ .endOfSource := by
  obtain ⟨ts, last, whole, ends, front⟩ := tokenize_eq source
  refine ⟨ts.filter fun t => t.kind != .endOfLine, last, ?_, ends, fun t inside => ?_⟩
  · rw [significant, whole, List.filter_append]
    simp [ends]
  · exact front t (List.mem_filter.1 inside).1

/-- The parser before the first token: nothing in sight yet. -/
theorem tokens_ofSource (source : String) : (TokenStream.ofSource source).tokens =
    ⟨.endOfSource, "", 0, 1⟩ :: significant source := rfl

theorem sane_of_advance {source : String} {arena : Arena} {s : ParseState}
    (moved : ParseState.advance ⟨.ofSource source, arena⟩ = .ok s) :
    s.stream.tokens = significant source ∧ s.stream.Sane := by
  obtain ⟨ts, last, whole, ends, -⟩ := significant_eq source
  obtain ⟨step, -⟩ := ParseState.advance_eq_ok moved
  have passed : s.stream.tokens = significant source :=
    TokenStream.tokens_eq_rest step (by
      show significant source ≠ []
      rw [whole]
      exact List.append_ne_nil_of_right_ne_nil _ (List.cons_ne_nil _ _))
  refine ⟨passed, ⟨last, ?_, ends⟩, fun t inside => ?_⟩
  · rw [passed, whole, List.getLast?_concat]
  · rw [passed] at inside
    exact shapes_of_mem_tokenize (List.mem_filter.1 inside).1

/-- What is left in front of the end of the source is the end of the source alone. -/
theorem eq_of_ends {ts us : List Token} {last : Token} {s : TokenStream}
    (front : ∀ t ∈ ts, t.kind ≠ .endOfSource) (final : s.current.kind = .endOfSource)
    (same : ts ++ [last] = us ++ s.tokens) : ts = us := by
  obtain ⟨current, rest⟩ := s
  rcases List.eq_nil_or_concat rest with rfl | ⟨init, x, rfl⟩
  · exact (List.append_inj' same rfl).1
  · have regrouped : us ++ (⟨current, init.concat x⟩ : TokenStream).tokens =
        us ++ current :: init ++ [x] := by simp [TokenStream.tokens]
    have inside := (List.append_inj' (same.trans regrouped) rfl).1
    refine absurd final (front current ?_)
    rw [inside]
    exact List.mem_append_right _ (List.mem_cons_self ..)

theorem accepts_of_parse {limits : ParseLimits} {arena : Arena} {source : String} {ast : Ast}
    (parsed : parse limits arena source = .ok ast) :
    Accepts limits source ast.expr ∧ ast.source = source ∧
      ast.arena.expr? ast.root = some ast.expr := by
  unfold parse at parsed
  obtain ⟨s₁, moved, parsed⟩ := bind_eq_ok.1 parsed
  obtain ⟨⟨root, s₂⟩, read, parsed⟩ := bind_eq_ok.1 parsed
  obtain ⟨s₃, finished, parsed⟩ := bind_eq_ok.1 parsed
  cases parsed
  obtain ⟨ts, last, whole, ends, front⟩ := significant_eq source
  obtain ⟨tokens, sane⟩ := sane_of_advance moved
  obtain ⟨us, passed, reads, -⟩ :=
    sound_readOperand limits limits.nesting (n := .or) (by decide) sane read
  obtain ⟨final, moved'⟩ := ParseState.expect_eq_ok finished
  obtain ⟨-, same⟩ := ParseState.advance_eq_ok moved'
  rw [tokens] at passed
  obtain rfl : ts = us := eq_of_ends front final (whole.symm.trans passed)
  refine ⟨⟨?_, ?_, ⟨ts, last, whole, ends, reads.derived⟩, reads.stored.low, reads.depth⟩, rfl, ?_⟩
  · intro t inside
    rw [whole, List.mem_append, List.mem_singleton] at inside
    rcases inside with inside | rfl
    · exact reads.derived.isFault t inside
    · rw [ends]; rfl
  · intro t inside
    rw [whole, List.mem_append, List.mem_singleton] at inside
    rcases inside with inside | rfl
    · exact reads.fits t inside
    · exact Token.fits_of_kind ends Kind.noConfusion
  · show s₃.arena.expr? root.id = some root.expr
    rw [same]
    exact Arena.expr?_of_unfolds reads.stored.unfolds reads.stored.room

theorem parse_of_accepts {limits : ParseLimits} (arena : Arena) {source : String} {e : Expr}
    (accepts : Accepts limits source e) : ∃ ast, parse limits arena source = .ok ast ∧
      ast.expr = e := by
  obtain ⟨ts, last, whole, ends, derived⟩ := accepts.derived
  obtain ⟨nesting, deep⟩ := Nat.exists_eq_add_one.2
    (Nat.lt_of_lt_of_le e.depth_pos accepts.depth)
  have clean := accepts.clean
  have fits := accepts.fits
  obtain ⟨s₁, moved, rest⟩ := ParseState.advance_of_tokens (s := ⟨.ofSource source, arena⟩)
    (tokens_ofSource source) (by simp [whole]) clean
  rw [whole] at rest clean
  have weaker := weaker_of_kind ends rfl
  have loose : 1 ≤ Stratum.or.rank := Nat.le_refl _
  obtain ⟨x, s₂, read, left, expr, -⟩ := (derived.reaches loose (deep ▸ accepts.depth)
    accepts.height (fun t inside => fits t (by rw [whole]; exact List.mem_append_left _ inside))
    rest clean (weaker _)).readOperand (weaker 1)
  have finished := ParseState.expect_of_last .expectedEnd left ends
  refine ⟨⟨source, s₂.arena, x.id, x.expr⟩, ?_, expr⟩
  unfold parse
  rw [deep]
  simp only [moved, read, finished, bind, Except.bind]
  rfl

/-- The parser accepts just the sources that hold an expression within the limits, whatever storage
it starts with, and its tree is that expression. No other expression has those tokens. -/
theorem parse_accepts_grammar (limits : ParseLimits) (arena : Arena) (source : String) :
    (∀ e, (∃ ast, parse limits arena source = .ok ast ∧ ast.expr = e) ↔
      Accepts limits source e) ∧
    ∀ ast, parse limits arena source = .ok ast →
      ast.source = source ∧ ast.arena.expr? ast.root = some ast.expr ∧
        ∀ ts last e, significant source = ts ++ [last] → Derives .or ts e → e = ast.expr := by
  constructor
  · intro e
    constructor
    · intro given
      obtain ⟨ast, parsed, rfl⟩ := given
      exact (accepts_of_parse parsed).1
    · exact parse_of_accepts arena
  · intro ast parsed
    obtain ⟨accepts, source_eq, found⟩ := accepts_of_parse parsed
    refine ⟨source_eq, found, fun ts last e whole derived => ?_⟩
    -- Under limits that leave room for both trees the parser gives either of them.
    let wide : ParseLimits :=
      ⟨max e.depth ast.expr.depth, max e.height ast.expr.height⟩
    obtain ⟨ts', last', whole', ends, derived'⟩ := accepts.derived
    obtain ⟨rfl, same⟩ := List.append_inj' (whole.symm.trans whole') rfl
    obtain rfl : last = last' := List.head_eq_of_cons_eq same
    obtain ⟨first, parsed₁, rfl⟩ := @parse_of_accepts wide arena source e
      ⟨accepts.clean, accepts.fits, ⟨ts, last, whole, ends, derived⟩, Nat.le_max_left _ _,
        Nat.le_max_left _ _⟩
    obtain ⟨second, parsed₂, expr⟩ := @parse_of_accepts wide arena source ast.expr
      ⟨accepts.clean, accepts.fits, ⟨ts, last, whole, ends, derived'⟩, Nat.le_max_right _ _,
        Nat.le_max_right _ _⟩
    rw [parsed₁] at parsed₂
    cases parsed₂
    exact expr

/-- A product is an operand of a sum. -/
theorem parse_accepts_grammar_sum : ∃ ast, parse .standard .standard "1+2*3" = .ok ast ∧
    ast.expr = .binary 1 .add (.literal 1 (.integer 1))
      (.binary 1 .multiply (.literal 1 (.integer 2)) (.literal 1 (.integer 3))) ∧
    Accepts .standard "1+2*3" ast.expr ∧ ast.arena.expr? ast.root = some ast.expr := by
  obtain ⟨agree, tree⟩ := parse_accepts_grammar .standard .standard "1+2*3"
  have value : (parse .standard .standard "1+2*3").toOption.map Ast.expr =
      some (.binary 1 .add (.literal 1 (.integer 1))
        (.binary 1 .multiply (.literal 1 (.integer 2)) (.literal 1 (.integer 3)))) := by cbv
  cases parsed : parse .standard .standard "1+2*3" with
  | error e =>
    rw [parsed] at value
    cases value
  | ok ast =>
    rw [parsed] at value
    exact ⟨ast, rfl, Option.some.inj value, (agree ast.expr).1 ⟨ast, parsed, rfl⟩,
      (tree ast parsed).2.1⟩

end Pseudocode
