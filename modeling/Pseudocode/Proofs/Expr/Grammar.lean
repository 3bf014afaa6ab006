import Pseudocode.Expr.Parser
/-!
# The grammar of expressions

Expressions come in strata, from `OR` down to literals and parentheses. The operators of a stratum
join expressions of that stratum, on the left, and of the next one, on the right, so they associate
to the left. The grammar knows nothing of strengths, lookahead or limits.

* `Derives`: which tokens of which stratum make which expression;
* `Derives.lower`: an expression of a stratum is one of every looser stratum;
* `ofKind?_eq_some_iff`: the tokens that the parser takes for operators are those of the grammar.
-/
namespace Pseudocode

/-! ## Strata -/

/-- A stratum of the grammar, the loosest first. -/
inductive Stratum where
  | or | and | equality | comparison | term | factor | unary | primary
  deriving DecidableEq, Repr

namespace Stratum

/-- The next tighter stratum. -/
def next : Stratum → Stratum
  | or => and
  | and => equality
  | equality => comparison
  | comparison => term
  | term => factor
  | factor => unary
  | unary => primary
  | primary => primary

/-- The place of the stratum, counted from one. -/
def rank : Stratum → Nat
  | or => 1
  | and => 2
  | equality => 3
  | comparison => 4
  | term => 5
  | factor => 6
  | unary => 7
  | primary => 8

theorem or_rank_le (n : Stratum) : Stratum.or.rank ≤ n.rank := by
  cases n <;> decide

theorem rank_le (n : Stratum) : n.rank ≤ 8 := by
  cases n <;> decide

theorem rank_le_next (n : Stratum) : n.rank ≤ n.next.rank := by
  cases n <;> decide

theorem rank_next {n : Stratum} (tighter : n.rank < 8) : n.next.rank = n.rank + 1 := by
  cases n with
  | primary => exact absurd tighter (by decide)
  | _ => rfl

theorem rank_injective {m n : Stratum} (same : m.rank = n.rank) : m = n := by
  cases m <;> cases n <;> first | rfl | cases same

end Stratum

/-! ## Tokens -/

/-- The kind of token that stands for an operator with one operand. -/
def UnaryOp.kind : UnaryOp → Kind
  | .not => .keyword .NOT
  | .negate => .symbol .minus

namespace BinaryOp

/-- The kind of token that stands for an operator with two operands. -/
def kind : BinaryOp → Kind
  | add => .symbol .plus
  | subtract => .symbol .minus
  | multiply => .symbol .star
  | divide => .symbol .slash
  | quotient => .keyword .DIV
  | remainder => .keyword .MOD
  | and => .keyword .AND
  | or => .keyword .OR
  | concat => .symbol .ampersand
  | equal => .symbol .equal
  | notEqual => .symbol .notEqual
  | greater => .symbol .greater
  | greaterEqual => .symbol .greaterEqual
  | less => .symbol .less
  | lessEqual => .symbol .lessEqual

def stratum : BinaryOp → Stratum
  | or => .or
  | and => .and
  | equal | notEqual => .equality
  | greater | greaterEqual | less | lessEqual => .comparison
  | add | subtract | concat => .term
  | multiply | divide | quotient | remainder => .factor

end BinaryOp

namespace Token

/-- The token is a literal that stands for the value. An integer that is too large stands for its
last 64 bits. -/
inductive Denotes (t : Token) : Literal → Prop where
  | trueWord (kind : t.kind = .keyword .TRUE) : Denotes t (.boolean true)
  | falseWord (kind : t.kind = .keyword .FALSE) : Denotes t (.boolean false)
  | integer (kind : t.kind = .integer) :
    Denotes t (.integer (Int64.ofNat (Decimal.value t.lexeme.toList)))
  | real (kind : t.kind = .real) {whole fraction : List Char}
    (text : t.lexeme.toList = whole ++ '.' :: fraction)
    (digits : ∀ c ∈ whole ++ fraction, c.isDigit = true) :
    Denotes t (.real (.ofDecimal whole fraction))
  | character (kind : t.kind = .character) {c : Char} (text : t.lexeme.toList = ['\'', c, '\'']) :
    Denotes t (.character (UInt8.ofNat c.toNat))
  | string (kind : t.kind = .string) : Denotes t (.string t.start t.size)

/-- If the token is an integer it is none that is too large. -/
def Fits (t : Token) : Prop := t.kind = .integer → Decimal.value t.lexeme.toList ≤ maxInteger

end Token

/-! ## Derivations -/

/-- The tokens are an expression of the stratum. -/
inductive Derives : Stratum → List Token → Expr → Prop where
  | literal {t : Token} {value : Literal} (denotes : t.Denotes value) :
    Derives .primary [t] (.literal t.line value)
  | group {t u : Token} {ts : List Token} {e : Expr} (opening : t.kind = .symbol .leftParen)
    (inner : Derives .or ts e) (closing : u.kind = .symbol .rightParen) :
    Derives .primary (t :: (ts ++ [u])) (.group t.line e)
  | unary {t : Token} {op : UnaryOp} {ts : List Token} {e : Expr} (named : t.kind = op.kind)
    (operand : Derives .unary ts e) : Derives .unary (t :: ts) (.unary t.line op e)
  | binary {t : Token} {op : BinaryOp} {ls rs : List Token} {l r : Expr}
    (left : Derives op.stratum ls l) (named : t.kind = op.kind)
    (right : Derives op.stratum.next rs r) :
    Derives op.stratum (ls ++ t :: rs) (.binary t.line op l r)
  | tighter {n : Stratum} {ts : List Token} {e : Expr} (inner : Derives n.next ts e) :
    Derives n ts e

/-- An expression of a stratum is one of every looser stratum. -/
theorem Derives.lower {m n : Stratum} {ts : List Token} {e : Expr} (derived : Derives n ts e)
    (looser : m.rank ≤ n.rank) : Derives m ts e := by
  by_cases same : m.rank = n.rank
  · rw [Stratum.rank_injective same]
    exact derived
  · have small := n.rank_le
    have step : m.next.rank = m.rank + 1 := Stratum.rank_next (by omega)
    exact .tighter (derived.lower (m := m.next) (by omega))
termination_by n.rank - m.rank

/-- How many operand positions are open at once where the expression is read. The left operand of an
operator is read in the position of the whole. -/
def Expr.depth : Expr → Nat
  | literal _ _ => 1
  | unary _ _ x => x.depth + 1
  | group _ x => x.depth + 1
  | binary _ _ l r => max l.depth (r.depth + 1)

theorem Expr.depth_pos (e : Expr) : 0 < e.depth := by
  induction e <;> simp only [depth] <;> omega

/-! ## Operators of the parser -/

/-- A token is taken for an operator just if it stands for it. -/
theorem UnaryOp.ofKind?_eq_some_iff {k : Kind} {op : UnaryOp} :
    ofKind? k = some op ↔ k = op.kind := by
  constructor
  · intro found
    unfold ofKind? at found
    split at found <;> cases found <;> rfl
  · intro same
    subst same
    cases op <;> rfl

/-- A token is taken for an operator just if it stands for it. -/
theorem BinaryOp.ofKind?_eq_some_iff {k : Kind} {op : BinaryOp} :
    ofKind? k = some op ↔ k = op.kind := by
  constructor
  · intro found
    unfold ofKind? at found
    split at found <;> cases found <;> rfl
  · intro same
    subst same
    cases op <;> rfl

/-- An operator is as strong as its stratum is tight. -/
theorem BinaryOp.strength_eq (op : BinaryOp) : op.strength = op.stratum.rank := by
  cases op <;> rfl

theorem BinaryOp.rank_next (op : BinaryOp) : op.stratum.next.rank = op.strength + 1 := by
  cases op <;> rfl

theorem BinaryOp.strength_le (op : BinaryOp) : op.strength ≤ 6 := by
  cases op <;> decide

/-! ## Tokens of an expression -/

/-- The kind of a literal is none of the others that an expression starts with. -/
theorem Token.Denotes.starts {t : Token} {value : Literal} (denotes : t.Denotes value) :
    t.kind ≠ .symbol .leftParen ∧ UnaryOp.ofKind? t.kind = none ∧ t.kind.isFault = false := by
  cases denotes with
  | trueWord kind | falseWord kind | integer kind | real kind | character kind | string kind =>
    rw [kind]
    exact ⟨Kind.noConfusion, rfl, rfl⟩

theorem Token.Denotes.isLiteral {t : Token} {value : Literal} (denotes : t.Denotes value) :
    t.kind.isLiteral = true := by
  cases denotes with
  | trueWord kind | falseWord kind | integer kind | real kind | character kind | string kind =>
    rw [kind]
    rfl

theorem UnaryOp.isFault_kind (op : UnaryOp) : op.kind.isFault = false := by
  cases op <;> rfl

theorem BinaryOp.isFault_kind (op : BinaryOp) : op.kind.isFault = false := by
  cases op <;> rfl

/-- What holds of the kinds of literals, operators and parentheses holds of all tokens of an
expression. -/
theorem Derives.forall_kind {P : Kind → Prop}
    (leaf : ∀ {t : Token} {value : Literal}, t.Denotes value → P t.kind)
    (opening : P (.symbol .leftParen)) (closing : P (.symbol .rightParen))
    (unary : ∀ op : UnaryOp, P op.kind) (binary : ∀ op : BinaryOp, P op.kind)
    {n : Stratum} {ts : List Token} {e : Expr} (derived : Derives n ts e) :
    ∀ t ∈ ts, P t.kind := by
  induction derived with
  | literal denotes =>
    intro t inside
    rw [List.mem_singleton.1 inside]
    exact leaf denotes
  | group first _ last ih =>
    simp only [List.mem_cons, List.mem_append, List.not_mem_nil, or_false]
    rintro t (rfl | inside | rfl)
    · rw [first]; exact opening
    · exact ih t inside
    · rw [last]; exact closing
  | @unary _ op _ _ named _ ih =>
    simp only [List.mem_cons]
    rintro t (rfl | inside)
    · rw [named]; exact unary op
    · exact ih t inside
  | @binary _ op _ _ _ _ _ named _ left right =>
    simp only [List.mem_append, List.mem_cons]
    rintro t (inside | rfl | inside)
    · exact left t inside
    · rw [named]; exact binary op
    · exact right t inside
  | tighter _ ih => exact ih

theorem Derives.isFault {n : Stratum} {ts : List Token} {e : Expr} (derived : Derives n ts e) :
    ∀ t ∈ ts, t.kind.isFault = false :=
  @Derives.forall_kind (·.isFault = false) (fun denotes => denotes.starts.2.2) rfl rfl
    UnaryOp.isFault_kind BinaryOp.isFault_kind _ _ _ derived

/-- Tokens of an expression are neither ends of lines nor the end of the source. -/
theorem Derives.inside {n : Stratum} {ts : List Token} {e : Expr} (derived : Derives n ts e) :
    ∀ t ∈ ts, t.kind ≠ .endOfLine ∧ t.kind ≠ .endOfSource :=
  @Derives.forall_kind (fun k => k ≠ .endOfLine ∧ k ≠ .endOfSource)
    (fun denotes => by
      constructor <;> intro same <;> simpa [same, Kind.isLiteral] using denotes.isLiteral)
    ⟨nofun, nofun⟩ ⟨nofun, nofun⟩ (fun op => by cases op <;> exact ⟨nofun, nofun⟩)
    (fun op => by cases op <;> exact ⟨nofun, nofun⟩) _ _ _ derived

end Pseudocode
