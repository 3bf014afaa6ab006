import Pseudocode.Proofs.Bytecode.Compiling
import Pseudocode.Proofs.Bytecode.Likeness
import Pseudocode.Proofs.Expr.Printing
/-!
# A printed expression compiles to the same code

Groups write nothing and lines are only recorded, so the code of an expression and what its
constants stand for depend on the bare expression alone. The text of an expression holds the bare
expression again, unless a real literal has no digits that are read back as it.

* `Compiled.Echoes`: the same code with constants that stand for the same;
* `Expr.echoes_compile`: expressions that are the same bare expression, by induction on one of them;
* `parse_render`: an expression that was read, printed and read again.
-/
namespace Pseudocode

/-! ## Chunks -/

/-- The same code, and constants that stand for the same, each on its heap. -/
structure Chunk.Echoes (heap heap' : Heap) (c c' : Chunk) : Prop where
  code : c.code = c'.code
  constants : List.Forall₂ (Value.Alike heap heap') c.constants.toList c'.constants.toList

/-- Chunks with the same code and constants that stand for the same, or a full pool for both. -/
inductive Compiled.Echoes : Compiled → Compiled → Prop
  | ok {c c' : Chunk} {heap heap' : Heap} (chunks : Chunk.Echoes heap heap' c c') :
    Echoes (.ok c, heap) (.ok c', heap')
  | full (e e' : PoolFull) (heap heap' : Heap) :
    Echoes (.error (.poolFull e), heap) (.error (.poolFull e'), heap')

section
variable {heap heap' : Heap} {c c' : Chunk}

namespace Chunk.Echoes

theorem empty (heap heap' : Heap) : Chunk.empty.Echoes heap heap' .empty := ⟨rfl, .nil⟩

theorem write (echoes : c.Echoes heap heap' c') (b : UInt8) (line line' : UInt32) :
    (c.write b line).Echoes heap heap' (c'.write b line') :=
  ⟨congrArg (·.push b) echoes.code, echoes.constants⟩

theorem writeAll (echoes : c.Echoes heap heap' c') (bs : List UInt8) (line line' : UInt32) :
    (c.writeAll bs line).Echoes heap heap' (c'.writeAll bs line') := by
  induction bs generalizing c c' with
  | nil => exact echoes
  | cons b bs ih => exact ih (echoes.write b line line')

theorem withConstant (echoes : c.Echoes heap heap' c') {v v' : Value}
    (value : Value.Alike heap heap' v v') :
    (c.withConstant v).Echoes heap heap' (c'.withConstant v') := by
  refine ⟨echoes.code, ?_⟩
  simp only [Chunk.withConstant, Array.toList_push]
  exact List.rel_append echoes.constants (.cons value .nil)

theorem grows (echoes : c.Echoes heap heap' c') {larger larger' : Heap} (left : heap.Grows larger)
    (right : heap'.Grows larger') : c.Echoes larger larger' c' :=
  ⟨echoes.code, echoes.constants.imp fun _ _ alike => alike.grows left right⟩

/-- The load of a constant has the index of the constant, which is the same in both pools. -/
theorem load (echoes : c.Echoes heap heap' c') {v v' : Value}
    (value : Value.Alike heap heap' v v') (line line' : UInt32) :
    Compiled.Echoes (c.load heap v line) (c'.load heap' v' line') := by
  have size : c.constants.size = c'.constants.size := by simpa using echoes.constants.length_eq
  rw [Chunk.load, Chunk.load, writeConstant, writeConstant, addConstant, addConstant, size]
  by_cases full : maxConstants ≤ c'.constants.size
  · rw [if_pos full, if_pos full]
    exact .full _ _ heap heap'
  · rw [if_neg full, if_neg full]
    exact .ok ((echoes.withConstant value).writeAll _ line line')

end Chunk.Echoes

/-- What follows echoes, on heaps that have room for all that is added. -/
theorem Compiled.echoes_andThen {done done' : Compiled} {next next' : Heap → Chunk → Compiled}
    (grows : ∀ (heap : Heap) c, heap.Grows (next heap c).2)
    (grows' : ∀ (heap : Heap) c, heap.Grows (next' heap c).2)
    (room : (done.andThen next).2.size ≤ UInt32.size)
    (room' : (done'.andThen next').2.size ≤ UInt32.size)
    (first : done.2.size ≤ UInt32.size → done'.2.size ≤ UInt32.size → done.Echoes done')
    (after : ∀ {heap heap' c c'}, c.Echoes heap heap' c' → (next heap c).2.size ≤ UInt32.size →
      (next' heap' c').2.size ≤ UInt32.size → Compiled.Echoes (next heap c) (next' heap' c')) :
    Compiled.Echoes (done.andThen next) (done'.andThen next') := by
  have echoes := first (Nat.le_trans (grows_andThen grows).size_le room)
    (Nat.le_trans (grows_andThen grows').size_le room')
  cases echoes with
  | ok chunks => exact after chunks room room'
  | full e e' heap heap' => exact .full e e' heap heap'

/-! ## Expressions -/

/-- The text between the quotes of a string. -/
theorem slice?_between {source : String} {start length : Nat} {body : List Char}
    (cut : Text.slice? source start length = some (String.ofList ('"' :: (body ++ ['"'])))) :
    2 ≤ length ∧ Text.slice? source (start + 1) (length - 2) = some (String.ofList body) := by
  obtain ⟨front, back, whole, before, width⟩ := Text.slice?_eq_some_iff.1 cut
  have quote : Char.utf8Size '"' = 1 := rfl
  rw [Text.byteLength_cons, Text.byteLength_append, Text.byteLength_cons, Text.byteLength_nil,
    quote] at width
  refine ⟨by omega, Text.slice?_eq_some_iff.2 ⟨front ++ ['"'], '"' :: back, ?_, ?_, ?_⟩⟩
  · rw [whole]
    simp
  · rw [Text.byteLength_append, Text.byteLength_cons, Text.byteLength_nil, quote, before]
  · omega

theorem Literal.echoes_compile {source source' : String} {value value' : Literal}
    (printable : value.Printable source) (same : value'.bare source' = value.bare source)
    (chunk : c.Echoes heap heap' c') (line line' : UInt32)
    (room : (value.compile source line heap c).2.size ≤ UInt32.size)
    (room' : (value'.compile source' line' heap' c').2.size ≤ UInt32.size) :
    Compiled.Echoes (value.compile source line heap c)
      (value'.compile source' line' heap' c') := by
  cases printable with
  | boolean b =>
    cases value' <;> cases same
    cases b <;> exact .ok (chunk.write _ line line')
  | character closed narrow alive =>
    cases value' <;> cases same
    exact chunk.load ⟨_, .character _, .character _⟩ line line'
  | integer small =>
    cases value' <;> cases same
    exact chunk.load ⟨_, .integer _, .integer _⟩ line line'
  | @real x positive number exact =>
    cases value' <;> cases same
    exact chunk.load ⟨_, .real x, .real x⟩ line line'
  | @string start length body cut closed alive =>
    cases value' with
    | string start' length' =>
      have cut' := (Bare.string.inj same).trans cut
      obtain ⟨long, text⟩ := slice?_between cut
      obtain ⟨long', text'⟩ := slice?_between cut'
      rw [compile, heap.literal?_eq, if_neg (by omega), text] at room ⊢
      rw [compile, heap'.literal?_eq, if_neg (by omega), text'] at room' ⊢
      simp only [Option.map_some, Chunk.heap_load] at room room' ⊢
      -- the constants so far stand for the same on the heaps with the string
      have grown := chunk.grows (heap.grows_intern (.ofText (String.ofList body) false))
        (heap'.grows_intern (.ofText (String.ofList body) false))
      exact grown.load ⟨_, .text (heap.text?_intern _ room), .text (heap'.text?_intern _ room')⟩
        line line'
    | _ => cases same

/-- An expression without the groups around it. -/
def Expr.ungrouped : Expr → Expr
  | group _ x => x.ungrouped
  | e => e

theorem Expr.compile_ungrouped (source : String) (e : Expr) :
    e.ungrouped.compile source = e.compile source := by
  induction e with
  | group line x ih => exact ih
  | _ => rfl

/-! What is around groups is known from the bare expression, by induction on the groups. -/

theorem Expr.ungrouped_of_bare_literal {source source' : String} {e : Expr} {value : Literal}
    (same : e.bare source' = value.bare source) :
    ∃ line value', e.ungrouped = .literal line value' ∧
      value'.bare source' = value.bare source := by
  induction e with
  | group line x ih => exact ih same
  | literal line value' => exact ⟨line, value', rfl, same⟩
  | unary line op x | binary line op l r => cases value <;> cases same

theorem Expr.ungrouped_of_bare_unary {source : String} {e : Expr} {op : UnaryOp} {b : Bare}
    (same : e.bare source = .unary op b) :
    ∃ line x, e.ungrouped = .unary line op x ∧ x.bare source = b := by
  induction e with
  | group line x ih => exact ih same
  | literal line value => cases value <;> cases same
  | unary line op' x =>
    obtain ⟨rfl, inner⟩ := Bare.unary.inj same
    exact ⟨line, x, rfl, inner⟩
  | binary line op' l r => cases same

theorem Expr.ungrouped_of_bare_binary {source : String} {e : Expr} {op : BinaryOp}
    {left right : Bare} (same : e.bare source = .binary op left right) :
    ∃ line l r, e.ungrouped = .binary line op l r ∧ l.bare source = left ∧
      r.bare source = right := by
  induction e with
  | group line x ih => exact ih same
  | literal line value => cases value <;> cases same
  | unary line op' x => cases same
  | binary line op' l r =>
    obtain ⟨rfl, first, second⟩ := Bare.binary.inj same
    exact ⟨line, l, r, rfl, first, second⟩

/-- Expressions that are the same but for groups and lines compile to the same, by induction on one
of them. -/
theorem Expr.echoes_compile {source source' : String} {e : Expr} :
    ∀ {e' : Expr} {heap heap' : Heap} {c c' : Chunk},
      (∀ value ∈ e.literals, value.Printable source) → e'.bare source' = e.bare source →
      c.Echoes heap heap' c' → (e.compile source heap c).2.size ≤ UInt32.size →
      (e'.compile source' heap' c').2.size ≤ UInt32.size →
      Compiled.Echoes (e.compile source heap c) (e'.compile source' heap' c') := by
  induction e with
  | group line x ih => exact ih
  | literal line value =>
    intro e' heap heap' c c' printable same chunk room room'
    obtain ⟨line', value', shape, same⟩ := ungrouped_of_bare_literal same
    rw [← e'.compile_ungrouped, shape] at room' ⊢
    exact Literal.echoes_compile (printable value (List.mem_singleton_self value)) same chunk
      line line' room room'
  | unary line op x ih =>
    intro e' heap heap' c c' printable same chunk room room'
    obtain ⟨line', x', shape, inner⟩ := ungrouped_of_bare_unary same
    rw [← e'.compile_ungrouped, shape] at room' ⊢
    exact Compiled.echoes_andThen (fun _ _ => .refl _) (fun _ _ => .refl _) room room'
      (ih printable inner chunk) fun chunk _ _ => .ok (chunk.write _ line line')
  | binary line op l r ihl ihr =>
    intro e' heap heap' c c' printable same chunk room room'
    obtain ⟨printableL, printableR⟩ := List.forall_mem_append.1 printable
    obtain ⟨line', l', r', shape, left, right⟩ := ungrouped_of_bare_binary same
    rw [← e'.compile_ungrouped, shape] at room' ⊢
    refine Compiled.echoes_andThen (fun heap c => ?_) (fun heap c => ?_) room room'
      (ihl printableL left chunk) fun chunk room room' =>
        Compiled.echoes_andThen (fun _ _ => .refl _) (fun _ _ => .refl _) room room'
          (ihr printableR right chunk) fun chunk _ _ => .ok (chunk.write _ line line')
    · exact (r.grows_heap source heap c).trans (Compiled.grows_andThen fun _ _ => .refl _)
    · exact (r'.grows_heap source' heap c).trans (Compiled.grows_andThen fun _ _ => .refl _)

end

/-! ## Sources -/

/-- The text of an expression that was read is read again under limits that are large enough, and
the two trees are the same but for groups and lines. They compile to the same code with constants
that stand for the same, whatever is on the heaps, unless neither fits into a pool. Every real
literal must be finite, and its text must stand for it. -/
theorem parse_render {limits : ParseLimits} {arena : Arena} {source : String} {ast : Ast}
    (parsed : parse limits arena source = .ok ast)
    (exact : ∀ x, Literal.real x ∈ ast.expr.literals → x.Exact) :
    ∃ text, ast.expr.render source = some text ∧ ∃ wide : ParseLimits,
      ∀ limits' : ParseLimits, wide.nesting ≤ limits'.nesting → wide.height ≤ limits'.height →
        ∀ arena', ∃ again, parse limits' arena' text = .ok again ∧ again.source = text ∧
          again.expr.bare text = ast.expr.bare source ∧
          ∀ heap heap' : Heap, (ast.compile heap).2.size ≤ UInt32.size →
            (again.compile heap').2.size ≤ UInt32.size →
            Compiled.Echoes (ast.compile heap) (again.compile heap') := by
  obtain ⟨accepts, same, -⟩ := accepts_of_parse parsed
  have printable := accepts.holds.printable exact
  obtain ⟨text, words, render, spells⟩ := Expr.spells printable
  obtain ⟨e, holds, bare⟩ := spells.holds
  refine ⟨String.ofList text, render, ⟨e.depth, e.height⟩, ?_⟩
  intro limits' deep low arena'
  obtain ⟨again, parsed', expr⟩ := parse_of_accepts arena' ((holds.accepts_iff low).2 deep)
  obtain ⟨-, same', -⟩ := accepts_of_parse parsed'
  refine ⟨again, parsed', same', expr ▸ bare, fun heap heap' room room' => ?_⟩
  refine Compiled.echoes_andThen (fun _ _ => .refl _) (fun _ _ => .refl _) room room' ?_
    fun chunk _ _ => .ok (chunk.write _ _ _)
  rw [same, same', expr]
  exact Expr.echoes_compile printable bare (.empty heap heap')

/-- A real number, a string over two lines with a comment and a parenthesis in it, and operators
that are put between parentheses. -/
theorem parse_render_nested :
    ∃ ast text, parse .standard .standard "-1.5 & \"a)\n//(\"" = .ok ast ∧
      ast.expr.render "-1.5 & \"a)\n//(\"" = some text ∧ ∃ limits again,
        parse limits .standard text = .ok again ∧
        again.expr.bare text = ast.expr.bare "-1.5 & \"a)\n//(\"" := by
  obtain ⟨ast, parsed, expr⟩ := @parse_of_value .standard .standard "-1.5 & \"a)\n//(\""
    (.binary 1 .concat (.unary 1 .negate (.literal 1 (.real ⟨0x3FF8000000000000⟩)))
      (.literal 1 (.string 7 8))) (by decide +kernel)
  have exact : ∀ x, Literal.real x ∈ ast.expr.literals → x.Exact := by
    rw [expr]
    intro x inside
    obtain rfl : x = ⟨0x3FF8000000000000⟩ := by simpa [Expr.literals] using inside
    exact ⟨by decide +kernel, by decide +kernel⟩
  obtain ⟨text, render, wide, reads⟩ := parse_render parsed exact
  obtain ⟨again, parsed', -, bare, -⟩ := reads wide (Nat.le_refl _) (Nat.le_refl _) .standard
  exact ⟨ast, text, parsed, render, wide, again, parsed', bare⟩

/-- The word for infinity is a name, and no expression, whatever the limits. -/
theorem parse_inf_ne_ok (limits : ParseLimits) (arena : Arena) (ast : Ast) :
    parse limits arena "inf" ≠ .ok ast := by
  obtain ⟨nesting, height⟩ := limits
  intro parsed
  cases nesting with
  | zero =>
    have refused : parse ⟨0, height⟩ arena "inf" =
        .error (.atToken .nestedTooDeeply 1 "inf") := by cbv
    rw [refused] at parsed
    cases parsed
  | succ nesting =>
    have refused : parse ⟨nesting + 1, height⟩ arena "inf" =
        .error (.atToken .expectedExpression 1 "inf") := by cbv
    rw [refused] at parsed
    cases parsed

/-- Digits with a point between them are read as a literal, however many they are. -/
theorem parse_digits {whole fraction : List Char} (front : whole ≠ []) (back : fraction ≠ [])
    (digits : ∀ c ∈ whole ++ fraction, c.isDigit = true) : ∃ ast line,
      parse .standard .standard (String.ofList (whole ++ '.' :: fraction)) = .ok ast ∧
        ast.expr = .literal line (.real (.ofDecimal whole fraction)) := by
  obtain ⟨line, holds⟩ := (rereads_real front back digits).holds
  have one : 1 ≤ ParseLimits.standard.height ∧ 1 ≤ ParseLimits.standard.nesting := by decide
  obtain ⟨ast, parsed, expr⟩ := parse_of_accepts .standard ((holds.accepts_iff one.1).2 one.2)
  exact ⟨ast, line, parsed, expr⟩

/-- A literal that is too large for a number is infinity. Its text is read back as that number, but
no source has it for a literal. -/
theorem parse_render_infinity :
    let source := String.ofList (('1' :: List.replicate 309 '0') ++ ['.', '0'])
    (∃ ast, parse .standard .standard source = .ok ast ∧
      (∀ x, Literal.real x ∈ ast.expr.literals → Binary64.ofText? x.sixPlaces = some x) ∧
      ast.expr.render source = some "inf") ∧
    ∀ limits arena ast, parse limits arena "inf" ≠ .ok ast := by
  intro source
  have digits : ∀ c ∈ ('1' :: List.replicate 309 '0') ++ ['0'], c.isDigit = true := by
    intro c inside
    simp only [List.cons_append, List.mem_cons, List.mem_append, List.mem_replicate,
      List.not_mem_nil, or_false] at inside
    rcases inside with rfl | ⟨-, rfl⟩ | rfl <;> rfl
  have large : Binary64.ofDecimal ('1' :: List.replicate 309 '0') ['0'] = .infinity false := by
    decide +kernel
  obtain ⟨ast, line, parsed, expr⟩ :=
    parse_digits (List.cons_ne_nil _ _) (List.cons_ne_nil _ _) digits
  rw [large] at expr
  refine ⟨⟨ast, parsed, fun x inside => ?_, ?_⟩, parse_inf_ne_ok⟩
  · rw [expr] at inside
    obtain rfl : x = .infinity false := by simpa [Expr.literals] using inside
    decide +kernel
  · rw [expr]
    show some (Binary64.infinity false).sixPlaces = some "inf"
    decide +kernel

end Pseudocode
