import Pseudocode.Expr.Printer
import Pseudocode.Proofs.Expr.Nesting
import Pseudocode.Proofs.Number.SixPlaces
import Pseudocode.Proofs.Token.Rereading
/-!
# Expressions printed and read again

The text of an expression is scanned as the words that the printer put together, and these words
derive the expression again: with parentheses around every operator, without the lines of the
source.

* `Expr.bare`: an expression without groups and lines;
* `Literal.Printable`: what is known of the literals of a source;
* `Rereads`: a text that is read as a literal, with a lemma for each kind of literal;
* `Spells`: a text that is read as an expression, with a lemma for each node;
* `Expr.spells`: the text of an expression, by induction on the expression.
-/
namespace Pseudocode

/-! ## Bare expressions -/

/-- An expression without its groups and its lines. A string is known by its lexeme, if it is a
range of the source. -/
inductive Bare where
  | scalar (value : Literal)
  | string (lexeme : Option String)
  | unary (op : UnaryOp) (operand : Bare)
  | binary (op : BinaryOp) (left right : Bare)
  deriving DecidableEq, Repr

def Literal.bare (source : String) : Literal → Bare
  | .string start length => .string (Text.slice? source start length)
  | value => .scalar value

def Expr.bare (source : String) : Expr → Bare
  | .literal _ value => value.bare source
  | .unary _ op x => .unary op (x.bare source)
  | .group _ x => x.bare source
  | .binary _ op l r => .binary op (l.bare source) (r.bare source)

/-- The literals of an expression, from left to right. -/
def Expr.literals : Expr → List Literal
  | .literal _ value => [value]
  | .unary _ _ x => x.literals
  | .group _ x => x.literals
  | .binary _ _ l r => l.literals ++ r.literals

/-! ## Literals of a source -/

/-- The text of a real number is read back as the number, and is none of the words for numbers that
have no digits. -/
def Binary64.Exact (x : Binary64) : Prop := x.isFinite = true ∧ ofText? x.sixPlaces = some x

/-- The literal is one of a source. A real number is one whose text is read back. -/
inductive Literal.Printable (source : String) : Literal → Prop where
  | boolean (b : Bool) : Printable source (.boolean b)
  | character {c : Char} (closed : c ≠ '\'') (narrow : c.utf8Size = 1) (alive : c ≠ '\x00') :
    Printable source (.character (UInt8.ofNat c.toNat))
  | integer {n : Nat} (small : n ≤ maxInteger) : Printable source (.integer (Int64.ofNat n))
  | real {x : Binary64} (positive : x.negative = false) (number : x.isNaN = false)
    (exact : x.Exact) : Printable source (.real x)
  | string {start length : Nat} {body : List Char}
    (cut : Text.slice? source start length = some (String.ofList ('"' :: (body ++ ['"']))))
    (closed : '"' ∉ body) (alive : '\x00' ∉ body) : Printable source (.string start length)

/-- The literal that a token of a source stands for. -/
theorem Literal.printable_of_denotes {source : String} {t : Token} {value : Literal}
    (inside : t ∈ tokenize source) (fits : t.Fits) (denotes : t.Denotes value)
    (exact : ∀ x, value = .real x → x.Exact) : value.Printable source := by
  have more : t.kind ≠ .endOfSource := fun ends => by
    simpa [ends, Kind.isLiteral] using denotes.isLiteral
  obtain ⟨before, l, origin⟩ := origin_of_mem_tokenize inside denotes.starts.2.2 more
  obtain ⟨c, cs, read⟩ := origin.read
  have quoted := Lexeme.quoted_read c cs
  rw [read, ← origin.kind] at quoted
  cases denotes with
  | trueWord kind => exact .boolean true
  | falseWord kind => exact .boolean false
  | integer kind => exact .integer (fits kind)
  | @real kind whole fraction text digits =>
    obtain ⟨positive, number⟩ := Binary64.ofDecimal_positive whole fraction
    exact .real positive number (exact _ rfl)
  | @character kind c text =>
    rw [kind] at quoted
    obtain ⟨d, quoted, closed, narrow⟩ := quoted
    rw [origin.lexeme, String.toList_ofList, quoted] at text
    cases text
    refine .character closed narrow fun same => origin.clean ?_
    rw [quoted, same]
    simp
  | string kind =>
    rw [kind] at quoted
    obtain ⟨body, quoted, closed⟩ := quoted
    have cut := origin.slice?
    rw [origin.lexeme, quoted] at cut
    refine .string cut closed fun inside => origin.clean ?_
    rw [quoted]
    simp [inside]

/-! ## Literals printed and read again -/

/-- The text is scanned as one word, and a token of that word stands for a literal that is bare `b`
in whatever source it is a range of. -/
structure Rereads (b : Bare) (kind : Kind) (text : List Char) : Prop where
  alive : '\x00' ∉ text
  real : kind.isFault = false
  reads : ∀ {rest}, Lexeme.Stops rest → Lexeme.Reads kind text rest
  denotes : ∀ {source : String} {t : Token}, t.kind = kind → t.lexeme = String.ofList text →
    Text.slice? source t.start t.size = some t.lexeme →
      ∃ value, t.Denotes value ∧ t.Fits ∧ value.bare source = b

theorem not_mem_of_isDigit {cs : List Char} (digits : ∀ c ∈ cs, c.isDigit = true) :
    '\x00' ∉ cs :=
  fun inside => absurd (digits _ inside) (by decide)

theorem rereads_boolean (b : Bool) : ∃ kind, Rereads (.scalar (.boolean b)) kind
    (truthText b).toList := by
  cases b with
  | true =>
    refine ⟨.keyword .TRUE, by decide, rfl, Lexeme.reads_keyword .TRUE, fun kind _ _ => ?_⟩
    exact ⟨_, .trueWord kind, Token.fits_of_kind kind Kind.noConfusion, rfl⟩
  | false =>
    refine ⟨.keyword .FALSE, by decide, rfl, Lexeme.reads_keyword .FALSE, fun kind _ _ => ?_⟩
    exact ⟨_, .falseWord kind, Token.fits_of_kind kind Kind.noConfusion, rfl⟩

theorem rereads_character {c : Char} (closed : c ≠ '\'') (narrow : c.utf8Size = 1)
    (alive : c ≠ '\x00') :
    Rereads (.scalar (.character (UInt8.ofNat c.toNat))) .character ['\'', c, '\''] := by
  refine ⟨by simp [alive.symm], rfl, fun _ => Lexeme.reads_character closed narrow _, ?_⟩
  intro source t kind lexeme _
  have text : t.lexeme.toList = ['\'', c, '\''] := by rw [lexeme, String.toList_ofList]
  exact ⟨_, .character kind text, Token.fits_of_kind kind Kind.noConfusion, rfl⟩

theorem rereads_integer {n : Nat} (small : n ≤ maxInteger) :
    Rereads (.scalar (.integer (Int64.ofNat n))) .integer (Decimal.digits n) := by
  have digits := Decimal.isDigit_digits n
  refine ⟨not_mem_of_isDigit digits, rfl, ?_, fun {source t} kind lexeme _ => ?_⟩
  · obtain ⟨c, cs, shape⟩ := List.exists_cons_of_ne_nil (Decimal.digits_ne_nil n)
    rw [shape] at digits ⊢
    exact Lexeme.reads_integer digits
  · have read : Decimal.value t.lexeme.toList = n := by
      rw [lexeme, String.toList_ofList, Decimal.value_digits]
    exact ⟨_, .integer kind, fun _ => read ▸ small, by rw [read]; rfl⟩

theorem rereads_real {whole fraction : List Char} (front : whole ≠ []) (back : fraction ≠ [])
    (digits : ∀ c ∈ whole ++ fraction, c.isDigit = true) :
    Rereads (.scalar (.real (.ofDecimal whole fraction))) .real (whole ++ '.' :: fraction) := by
  obtain ⟨left, right⟩ := List.forall_mem_append.1 digits
  refine ⟨?_, rfl, ?_, fun {source t} kind lexeme _ => ?_⟩
  · simp [not_mem_of_isDigit left, not_mem_of_isDigit right]
  · obtain ⟨c, cs, rfl⟩ := List.exists_cons_of_ne_nil front
    obtain ⟨d, ds, rfl⟩ := List.exists_cons_of_ne_nil back
    exact Lexeme.reads_real left right
  · have text : t.lexeme.toList = whole ++ '.' :: fraction := by
      rw [lexeme, String.toList_ofList]
    exact ⟨_, .real kind text digits, Token.fits_of_kind kind Kind.noConfusion, rfl⟩

theorem rereads_string {body : List Char} (closed : '"' ∉ body) (alive : '\x00' ∉ body) :
    Rereads (.string (some (String.ofList ('"' :: (body ++ ['"']))))) .string
      ('"' :: (body ++ ['"'])) := by
  refine ⟨by simp [alive], rfl, fun _ => Lexeme.reads_string closed _, ?_⟩
  intro source t kind lexeme range
  exact ⟨_, .string kind, Token.fits_of_kind kind Kind.noConfusion,
    congrArg Bare.string (lexeme ▸ range)⟩

theorem utf8Size_eq_one {c : Char} (narrow : c.utf8Size = 1) : c.toNat < 128 := by
  have small := Char.utf8Size_eq_one_iff.1 narrow
  rw [UInt32.le_iff_toNat_le] at small
  exact Nat.lt_succ_of_le small

/-- The text of a literal of a source is read back. -/
theorem Literal.Printable.rereads {source : String} {value : Literal}
    (printable : value.Printable source) : ∃ kind text,
      value.render source = some (String.ofList text) ∧
        Rereads (value.bare source) kind text := by
  cases printable with
  | boolean b =>
    obtain ⟨kind, rereads⟩ := rereads_boolean b
    exact ⟨kind, _, congrArg some String.ofList_toList.symm, rereads⟩
  | @character c closed narrow alive =>
    have small := utf8Size_eq_one narrow
    have same : Char.ofNat (UInt8.ofNat c.toNat).toNat = c := by
      rw [UInt8.toNat_ofNat', Nat.mod_eq_of_lt (by omega), Char.ofNat_toNat]
    refine ⟨_, _, ?_, rereads_character closed narrow alive⟩
    rw [render, characterText, same]
  | @integer n small =>
    have signed : (Int64.ofNat n).toInt = n := Int64.toInt_ofNat_of_lt (Nat.lt_succ_of_le small)
    refine ⟨_, _, ?_, rereads_integer small⟩
    rw [render, integerText, signed, Decimal.ofInt, if_neg (by omega)]
    rfl
  | @real x positive number exact =>
    obtain ⟨whole, fraction, text, front, back, digits⟩ :=
      Binary64.sixPlaces_eq positive number exact.1
    have same : Binary64.ofDecimal whole fraction = x := by
      have read := exact.2
      rw [text, Binary64.ofText?_digits front digits] at read
      exact Option.some.inj read
    refine ⟨_, _, ?_, same ▸ rereads_real front back digits⟩
    rw [render, text]
  | string cut closed alive =>
    refine ⟨.string, _, cut, ?_⟩
    rw [bare, cut]
    exact rereads_string closed alive

/-! ## Expressions printed and read again -/

/-- The tokens that are no faults are ranges of the source. -/
def Ranges (source : String) (ts : List Token) : Prop :=
  ∀ t ∈ ts, t.kind.isFault = false → Text.slice? source t.start t.size = some t.lexeme

/-- The text is scanned as these words, and tokens of these words derive an expression of the
stratum that is bare `b`, whatever source they are ranges of. -/
structure Spells (n : Stratum) (b : Bare) (text : List Char) (words : List (Kind × String)) :
    Prop where
  alive : '\x00' ∉ text
  scans : ∀ {rest}, Lexeme.Stops rest → Cursor.Scans text words rest
  derives : ∀ {source : String} {ts : List Token}, ts.map Token.word = words → Ranges source ts →
    ∃ e, Derives n ts e ∧ (∀ t ∈ ts, t.Fits) ∧ e.bare source = b

theorem UnaryOp.reads_text (op : UnaryOp) (rest : List Char) :
    Lexeme.Reads op.kind op.text.toList (' ' :: rest) := by
  cases op with
  | not => exact Lexeme.reads_keyword .NOT (Lexeme.stops_blank rest)
  | negate => exact Lexeme.reads_symbol .minus (Lexeme.stops_blank rest)

theorem BinaryOp.reads_text (op : BinaryOp) (rest : List Char) :
    Lexeme.Reads op.kind op.text.toList (' ' :: rest) := by
  have word (k : Keyword) := Lexeme.reads_keyword k (Lexeme.stops_blank rest)
  cases op with
  | quotient => exact word .DIV
  | remainder => exact word .MOD
  | and => exact word .AND
  | or => exact word .OR
  | add | subtract | multiply | divide | concat | equal | notEqual | greater | greaterEqual | less
  | lessEqual => exact Lexeme.reads_symbol _ (Lexeme.stops_blank rest)

theorem UnaryOp.alive_text (op : UnaryOp) : '\x00' ∉ op.text.toList := by
  cases op <;> decide

theorem BinaryOp.alive_text (op : BinaryOp) : '\x00' ∉ op.text.toList := by
  cases op <;> decide

section
variable {text text' : List Char} {words words' : List (Kind × String)} {a b : Bare}

theorem Rereads.spells {kind : Kind} (rereads : Rereads b kind text) :
    Spells .primary b text [(kind, String.ofList text)] := by
  refine ⟨rereads.alive,
    fun stops => Cursor.scans_of_reads (rereads.reads stops) rereads.real, ?_⟩
  intro source ts same ranges
  obtain ⟨t, rfl, word⟩ := List.map_eq_singleton_iff.1 same
  obtain ⟨rfl, lexeme⟩ := Prod.mk.inj word
  obtain ⟨value, denotes, fits, bare⟩ :=
    rereads.denotes rfl lexeme (ranges t (List.mem_singleton_self t) rereads.real)
  exact ⟨.literal t.line value, .literal denotes, List.forall_mem_singleton.2 fits, bare⟩

/-- Parentheses make any expression a primary one. -/
theorem Spells.group {n : Stratum} (inner : Spells n b text words) :
    Spells .primary b ('(' :: (text ++ [')']))
      ((.symbol .leftParen, "(") :: (words ++ [(.symbol .rightParen, ")")])) := by
  refine ⟨by simp [inner.alive], fun {rest} _ => ?_, ?_⟩
  · have opening := Cursor.scans_of_reads (Lexeme.reads_leftParen (text ++ [')'] ++ rest)) rfl
    have closing := Cursor.scans_of_reads (Lexeme.reads_rightParen rest) rfl
    exact opening.append ((inner.scans (Lexeme.stops_rightParen rest)).append closing)
  · intro source ts same ranges
    obtain ⟨t, others, rfl, first, behind⟩ := List.map_eq_cons_iff.1 same
    obtain ⟨us, last, rfl, between, final⟩ := List.map_eq_append_iff.1 behind
    obtain ⟨u, rfl, closing⟩ := List.map_eq_singleton_iff.1 final
    obtain ⟨e, derived, fits, bare⟩ := inner.derives between fun v inside =>
      ranges v (by simp [inside])
    have opens := congrArg Prod.fst first
    have closes := congrArg Prod.fst closing
    refine ⟨.group t.line e, .group opens (derived.lower n.or_rank_le) closes, ?_, bare⟩
    rw [List.forall_mem_cons, List.forall_mem_append, List.forall_mem_singleton]
    exact ⟨Token.fits_of_kind opens Kind.noConfusion, fits,
      Token.fits_of_kind closes Kind.noConfusion⟩

theorem Spells.unary (op : UnaryOp) (operand : Spells .primary b text words) :
    Spells .unary (.unary op b) (op.text.toList ++ ' ' :: text) ((op.kind, op.text) :: words) := by
  refine ⟨by simp [op.alive_text, operand.alive], fun {rest} stops => ?_, ?_⟩
  · have sign := Cursor.scans_of_reads (op.reads_text (text ++ rest)) op.isFault_kind
    rw [String.ofList_toList] at sign
    exact sign.append (operand.scans stops).blank
  · intro source ts same ranges
    obtain ⟨t, us, rfl, first, behind⟩ := List.map_eq_cons_iff.1 same
    obtain ⟨e, derived, fits, bare⟩ := operand.derives behind fun v inside =>
      ranges v (by simp [inside])
    have named : t.kind = op.kind := congrArg Prod.fst first
    refine ⟨.unary t.line op e, .unary named (derived.lower (by decide)), ?_, ?_⟩
    · rw [List.forall_mem_cons]
      exact ⟨Token.fits_of_kind named (by cases op <;> exact Kind.noConfusion), fits⟩
    · rw [Expr.bare, bare]

theorem Spells.binary (op : BinaryOp) (left : Spells .primary a text words)
    (right : Spells .primary b text' words') :
    Spells op.stratum (.binary op a b) (text ++ ' ' :: (op.text.toList ++ ' ' :: text'))
      (words ++ (op.kind, op.text) :: words') := by
  refine ⟨by simp [op.alive_text, left.alive, right.alive], fun {rest} stops => ?_, ?_⟩
  · have sign := Cursor.scans_of_reads (op.reads_text (text' ++ rest)) op.isFault_kind
    rw [String.ofList_toList] at sign
    exact (left.scans (Lexeme.stops_blank _)).append
      (Cursor.Scans.blank (sign.append (right.scans stops).blank))
  · intro source ts same ranges
    obtain ⟨ls, others, rfl, front, behind⟩ := List.map_eq_append_iff.1 same
    obtain ⟨t, rs, rfl, middle, back⟩ := List.map_eq_cons_iff.1 behind
    obtain ⟨l, derivedL, fitsL, bareL⟩ := left.derives front fun v inside =>
      ranges v (by simp [inside])
    obtain ⟨r, derivedR, fitsR, bareR⟩ := right.derives back fun v inside =>
      ranges v (by simp [inside])
    have named : t.kind = op.kind := congrArg Prod.fst middle
    refine ⟨.binary t.line op l r, .binary (derivedL.lower (Stratum.rank_le _)) named
      (derivedR.lower (Stratum.rank_le _)), ?_, ?_⟩
    · rw [List.forall_mem_append, List.forall_mem_cons]
      exact ⟨fitsL, Token.fits_of_kind named (by cases op <;> exact Kind.noConfusion), fitsR⟩
    · rw [Expr.bare, bareL, bareR]

end

/-- The text of an expression, by induction on the expression. -/
theorem Expr.spells {source : String} {e : Expr}
    (printable : ∀ value ∈ e.literals, value.Printable source) : ∃ text words,
      e.render source = some (String.ofList text) ∧ Spells .primary (e.bare source) text words := by
  induction e with
  | literal line value =>
    obtain ⟨kind, text, render, rereads⟩ :=
      (printable value (List.mem_singleton_self value)).rereads
    exact ⟨text, _, render, rereads.spells⟩
  | group line x ih =>
    obtain ⟨text, words, render, spells⟩ := ih printable
    refine ⟨_, _, ?_, spells.group⟩
    rw [Expr.render, render]
    exact congrArg some (String.toList_inj.1 (by simp))
  | unary line op x ih =>
    obtain ⟨text, words, render, spells⟩ := ih printable
    refine ⟨_, _, ?_, (spells.unary op).group⟩
    rw [Expr.render, render]
    exact congrArg some (String.toList_inj.1 (by simp))
  | binary line op l r ihl ihr =>
    obtain ⟨printableL, printableR⟩ := List.forall_mem_append.1 printable
    obtain ⟨text, words, render, spells⟩ := ihl printableL
    obtain ⟨text', words', render', spells'⟩ := ihr printableR
    refine ⟨_, _, ?_, (spells.binary op spells').group⟩
    rw [Expr.render, render, render']
    exact congrArg some (String.toList_inj.1 (by simp))

/-! ## Sources -/

/-- Every literal of an expression is what one of its tokens stands for. -/
theorem Derives.denotes {n : Stratum} {ts : List Token} {e : Expr} (derived : Derives n ts e) :
    ∀ value ∈ e.literals, ∃ t ∈ ts, t.Denotes value := by
  induction derived with
  | @literal t value denotes =>
    intro other inside
    rw [List.mem_singleton.1 inside]
    exact ⟨t, List.mem_singleton_self t, denotes⟩
  | group _ _ _ ih =>
    intro value inside
    obtain ⟨t, among, denotes⟩ := ih value inside
    exact ⟨t, by simp [among], denotes⟩
  | unary _ _ ih =>
    intro value inside
    obtain ⟨t, among, denotes⟩ := ih value inside
    exact ⟨t, List.mem_cons_of_mem _ among, denotes⟩
  | binary _ _ _ left right =>
    intro value inside
    rcases List.mem_append.1 inside with inside | inside
    · obtain ⟨t, among, denotes⟩ := left value inside
      exact ⟨t, by simp [among], denotes⟩
    · obtain ⟨t, among, denotes⟩ := right value inside
      exact ⟨t, by simp [among], denotes⟩
  | tighter _ ih => exact ih

/-- The token of a literal of a source that holds an expression. -/
theorem Holds.token_of_mem {source : String} {e : Expr} (holds : Holds source e)
    {value : Literal} (inside : value ∈ e.literals) :
    ∃ t ∈ tokenize source, t.Fits ∧ t.Denotes value := by
  obtain ⟨ts, last, whole, -, derived⟩ := holds.derived
  obtain ⟨t, among, denotes⟩ := derived.denotes value inside
  have token : t ∈ significant source := by
    rw [whole]
    exact List.mem_append_left _ among
  exact ⟨t, (List.mem_filter.1 token).1, holds.fits t token, denotes⟩

/-- A literal of a source that holds an expression. -/
theorem Holds.printable_of_mem {source : String} {e : Expr} (holds : Holds source e)
    {value : Literal} (inside : value ∈ e.literals) (exact : ∀ x, value = .real x → x.Exact) :
    value.Printable source := by
  obtain ⟨t, token, fits, denotes⟩ := holds.token_of_mem inside
  exact value.printable_of_denotes token fits denotes exact

/-- The literals of a source that holds an expression. -/
theorem Holds.printable {source : String} {e : Expr} (holds : Holds source e)
    (exact : ∀ x, Literal.real x ∈ e.literals → x.Exact) :
    ∀ value ∈ e.literals, value.Printable source :=
  fun _ inside => holds.printable_of_mem inside fun x same => exact x (same ▸ inside)

/-- A text that is scanned as words holds what these words derive. -/
theorem holds_of_scans {P : Expr → Prop} {n : Stratum} {text : List Char}
    {words : List (Kind × String)} (scans : Cursor.Scans text words []) (alive : '\x00' ∉ text)
    (derives : ∀ ts, ts.map Token.word = words → Ranges (String.ofList text) ts →
      ∃ e, Derives n ts e ∧ (∀ t ∈ ts, t.Fits) ∧ P e) :
    ∃ e, Holds (String.ofList text) e ∧ P e := by
  obtain ⟨ts, last, whole, ends, same⟩ := scans.tokenize alive
  obtain ⟨front, final, whole', -, more⟩ := tokenize_eq (String.ofList text)
  obtain ⟨rfl, -⟩ := List.append_inj' (whole.symm.trans whole') rfl
  have ranges : Ranges (String.ofList text) ts := by
    intro t inside real
    have token : t ∈ tokenize (String.ofList text) := by
      rw [whole]
      exact List.mem_append_left _ inside
    obtain ⟨before, l, origin⟩ := origin_of_mem_tokenize token real (more t inside)
    exact origin.slice?
  obtain ⟨e, derived, fits, property⟩ := derives ts same ranges
  have kept : significant (String.ofList text) = ts ++ [last] := by
    rw [significant, whole]
    refine List.filter_eq_self.2 fun t inside => ?_
    rcases List.mem_append.1 inside with inside | inside
    · exact bne_iff_ne.2 (derived.inside t inside).1
    · rw [List.mem_singleton.1 inside, ends]
      rfl
  refine ⟨e, ⟨?_, ?_, ts, last, kept, ends, derived.lower n.or_rank_le⟩, property⟩
  · rw [kept]
    exact List.forall_mem_append.2 ⟨derived.isFault, by simp [ends, Kind.isFault]⟩
  · rw [kept]
    exact List.forall_mem_append.2 ⟨fits, List.forall_mem_singleton.2
      (Token.fits_of_kind ends Kind.noConfusion)⟩

/-- A text that spells an expression holds it. -/
theorem Spells.holds {n : Stratum} {b : Bare} {text : List Char} {words : List (Kind × String)}
    (spells : Spells n b text words) :
    ∃ e, Holds (String.ofList text) e ∧ e.bare (String.ofList text) = b :=
  holds_of_scans (spells.scans Lexeme.stops_nil) spells.alive fun _ => spells.derives

/-- A text that is read as a literal holds the literal. -/
theorem Rereads.holds {value : Literal} {kind : Kind} {text : List Char}
    (rereads : Rereads (.scalar value) kind text) :
    ∃ line, Holds (String.ofList text) (.literal line value) := by
  obtain ⟨e, holds, line, rfl⟩ := @holds_of_scans (fun e => ∃ line, e = .literal line value)
    .primary text _ (Cursor.scans_of_reads (rereads.reads Lexeme.stops_nil) rereads.real)
    rereads.alive fun ts same ranges => by
      obtain ⟨t, rfl, word⟩ := List.map_eq_singleton_iff.1 same
      obtain ⟨rfl, lexeme⟩ := Prod.mk.inj word
      obtain ⟨again, denotes, fits, bare⟩ :=
        rereads.denotes rfl lexeme (ranges t (List.mem_singleton_self t) rereads.real)
      obtain rfl : again = value := by cases again <;> cases bare <;> rfl
      exact ⟨_, .literal denotes, List.forall_mem_singleton.2 fits, t.line, rfl⟩
  exact ⟨line, holds⟩

end Pseudocode
