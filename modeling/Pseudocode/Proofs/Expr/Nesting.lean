import Pseudocode.Proofs.Expr.Recognition
/-!
# What the limit of nesting counts

A position for an operand is opened by a prefix operator, by a parenthesis and by an operator
between two operands for the one on its right. The limit is on all of them, not only on the prefix
operators and parentheses around a token. An operand on the right is of a tighter stratum than its
operator, so at most six of them open between one parenthesis or prefix operator and the next.

* `Derives.depth_le`, `Expr.enclosure_lt_depth`: the positions against the prefix operators and
  parentheses alone;
* `parse_iff_depth_le`: an expression whose tree is low enough is read just if the positions it
  opens are within the limit.
-/
namespace Pseudocode

/-- The deepest chain of prefix operators and parentheses around a token of the expression. -/
def Expr.enclosure : Expr → Nat
  | literal _ _ => 0
  | unary _ _ x => x.enclosure + 1
  | group _ x => x.enclosure + 1
  | binary _ _ l r => max l.enclosure r.enclosure

/-- The source holds the expression and nothing else, whatever the limits. -/
structure Holds (source : String) (e : Expr) : Prop where
  clean : Clean (significant source)
  fits : ∀ t ∈ significant source, t.Fits
  derived : ∃ ts last, significant source = ts ++ [last] ∧ last.kind = .endOfSource ∧
    Derives .or ts e

theorem Holds.accepts_iff {limits : ParseLimits} {source : String} {e : Expr}
    (holds : Holds source e) (low : e.height ≤ limits.height) :
    Accepts limits source e ↔ e.depth ≤ limits.nesting :=
  ⟨Accepts.depth, fun deep => ⟨holds.clean, holds.fits, holds.derived, low, deep⟩⟩

theorem Accepts.holds {limits : ParseLimits} {source : String} {e : Expr}
    (accepts : Accepts limits source e) : Holds source e :=
  ⟨accepts.clean, accepts.fits, accepts.derived⟩

/-- A tree that is read off what the parser comes to. -/
theorem parse_of_value {limits : ParseLimits} {arena : Arena} {source : String} {e : Expr}
    (value : (parse limits arena source).toOption.map Ast.expr = some e) :
    ∃ ast, parse limits arena source = .ok ast ∧ ast.expr = e := by
  cases parsed : parse limits arena source with
  | error problem =>
    rw [parsed] at value
    cases value
  | ok ast =>
    rw [parsed] at value
    exact ⟨ast, rfl, Option.some.inj value⟩

/-- What is read under some limits is what the source holds. -/
theorem holds_of_parse {limits : ParseLimits} {arena : Arena} {source : String} {e : Expr}
    (value : (parse limits arena source).toOption.map Ast.expr = some e) : Holds source e := by
  obtain ⟨ast, parsed, rfl⟩ := parse_of_value value
  exact (accepts_of_parse parsed).1.holds

/-- Every prefix operator and parenthesis opens a position, and the whole is read in one more. -/
theorem Expr.enclosure_lt_depth (e : Expr) : e.enclosure < e.depth := by
  induction e with
  | literal line value => exact Nat.zero_lt_one
  | unary line op x ih => exact Nat.succ_lt_succ ih
  | group line x ih => exact Nat.succ_lt_succ ih
  | binary line op l r ihl ihr =>
    simp only [enclosure, depth]
    omega

/-- From one prefix operator or parenthesis to the next the strata only get tighter, so there is at
most one position for each of the seven above the literals. -/
theorem Derives.depth_le {n : Stratum} {ts : List Token} {e : Expr} (derived : Derives n ts e) :
    e.depth + min n.rank 7 ≤ 7 * e.enclosure + 8 := by
  induction derived with
  | literal denotes => exact Nat.le_refl _
  | group opening inner closing ih =>
    simp only [Expr.depth, Expr.enclosure, Stratum.rank] at ih ⊢
    omega
  | unary named operand ih =>
    simp only [Expr.depth, Expr.enclosure, Stratum.rank] at ih ⊢
    omega
  | @binary t op ls rs l r left named right ihl ihr =>
    have rank := op.strength_eq
    have next := op.rank_next
    have small := op.strength_le
    simp only [Expr.depth, Expr.enclosure]
    omega
  | @tighter n ts e inner ih =>
    have loose := n.rank_le_next
    omega

/-- An expression whose tree is low enough is read just if the positions that it opens are within
the limit. There is at least one more than prefix operators and parentheses around a token, and
there may be seven times as many. -/
theorem parse_iff_depth_le (limits : ParseLimits) (arena : Arena) {source : String} {e : Expr}
    (holds : Holds source e) (low : e.height ≤ limits.height) :
    ((∃ ast, parse limits arena source = .ok ast) ↔ e.depth ≤ limits.nesting) ∧
    (∀ ast, parse limits arena source = .ok ast → ast.expr = e) ∧
    e.enclosure < e.depth ∧ e.depth ≤ 7 * (e.enclosure + 1) := by
  obtain ⟨agree, unique⟩ := parse_accepts_grammar limits arena source
  obtain ⟨ts, last, whole, ends, derived⟩ := holds.derived
  have same : ∀ ast, parse limits arena source = .ok ast → ast.expr = e := fun ast parsed =>
    ((unique ast parsed).2.2 ts last e whole derived).symm
  refine ⟨⟨?_, fun deep => ?_⟩, same, e.enclosure_lt_depth, ?_⟩
  · rintro ⟨ast, parsed⟩
    exact ((agree e).1 ⟨ast, parsed, same ast parsed⟩).depth
  · obtain ⟨ast, parsed, -⟩ := (agree e).2 ((holds.accepts_iff low).2 deep)
    exact ⟨ast, parsed⟩
  · have strata := derived.depth_le
    simp only [Stratum.rank] at strata
    omega

/-- No prefix operator and no parenthesis stands here, but a position is open for each operand on
the right: six positions are too few and seven are enough. -/
theorem parse_iff_depth_le_strata :
    (¬ ∃ ast, parse ⟨6, 1024⟩ .standard "1 OR 2 AND 3 = 4 < 5 + 6 * 7" = .ok ast) ∧
    ∃ ast, parse ⟨7, 1024⟩ .standard "1 OR 2 AND 3 = 4 < 5 + 6 * 7" = .ok ast := by
  let e : Expr := .binary 1 .or (.literal 1 (.integer 1)) (.binary 1 .and (.literal 1 (.integer 2))
    (.binary 1 .equal (.literal 1 (.integer 3)) (.binary 1 .less (.literal 1 (.integer 4))
      (.binary 1 .add (.literal 1 (.integer 5)) (.binary 1 .multiply (.literal 1 (.integer 6))
        (.literal 1 (.integer 7)))))))
  have holds : Holds "1 OR 2 AND 3 = 4 < 5 + 6 * 7" e :=
    @holds_of_parse .standard .standard _ _ (by cbv)
  obtain ⟨six, -⟩ := parse_iff_depth_le ⟨6, 1024⟩ .standard holds (by decide)
  obtain ⟨seven, -⟩ := parse_iff_depth_le ⟨7, 1024⟩ .standard holds (by decide)
  exact ⟨fun given => absurd (six.1 given) (by decide), seven.2 (by decide)⟩

/-- The operand on the right of a sum uses up a position, though no prefix operator or parenthesis
is around it. -/
theorem parse_sum_nested_too_deeply :
    Holds "1+2" (.binary 1 .add (.literal 1 (.integer 1)) (.literal 1 (.integer 2))) ∧
    (Expr.binary 1 .add (.literal 1 (.integer 1)) (.literal 1 (.integer 2))).enclosure < 1 ∧
    (Expr.binary 1 .add (.literal 1 (.integer 1)) (.literal 1 (.integer 2))).height ≤ 1024 ∧
    parse ⟨1, 1024⟩ .standard "1+2" = .error (.atToken .nestedTooDeeply 1 "2") :=
  ⟨@holds_of_parse .standard .standard _ _ (by cbv), by decide, by decide, by cbv⟩

end Pseudocode
