import Pseudocode.Proofs.Bytecode.Reprinting
/-!
# How compiling fails

A string literal of a tree that was parsed is a range of the source from quote to quote, so its text
between the quotes is always found, and so is its text for printing. What is left are the errors of
the parser, before anything is interned, and a pool that is full: every literal but truth values
takes a constant of its own, so this happens just at the literal that comes behind as many of these
as the pool has room for.

* `Holds.quoted`: the string literals of a source;
* `Compiled.Fills`: what compiling does to a pool that is not over-full, with a law for code behind
  code;
* `Expr.fills_compile`: the constants of an expression, by induction on the expression;
* `compileSource_fails`: the errors of a source.
-/
namespace Pseudocode

/-! ## Literals between quotes -/

/-- A string is a range of the source that starts and ends with a quote. -/
def Literal.Quoted (source : String) : Literal → Prop
  | .string start length => ∃ body,
      Text.slice? source start length = some (String.ofList ('"' :: (body ++ ['"'])))
  | _ => True

section
variable {source : String} {e : Expr}

theorem Holds.quoted (holds : Holds source e) : ∀ value ∈ e.literals, value.Quoted source := by
  intro value inside
  cases value with
  | string start length =>
    cases holds.printable_of_mem inside nofun with
    | string cut closed alive => exact ⟨_, cut⟩
  | _ => trivial

theorem Literal.isSome_render {value : Literal} (quoted : value.Quoted source) :
    (value.render source).isSome := by
  cases value with
  | string start length =>
    obtain ⟨body, cut⟩ := quoted
    simp [render, cut]
  | _ => rfl

/-- An expression is printed if its literals are. -/
theorem Expr.isSome_render (quoted : ∀ value ∈ e.literals, value.Quoted source) :
    (e.render source).isSome := by
  induction e with
  | literal line value => exact Literal.isSome_render (quoted value (List.mem_singleton_self _))
  | unary line op x ih =>
    obtain ⟨text, found⟩ := Option.isSome_iff_exists.1 (ih quoted)
    simp [render, found]
  | group line x ih =>
    obtain ⟨text, found⟩ := Option.isSome_iff_exists.1 (ih quoted)
    simp [render, found]
  | binary line op l r left right =>
    obtain ⟨quotedL, quotedR⟩ := List.forall_mem_append.1 quoted
    obtain ⟨text, found⟩ := Option.isSome_iff_exists.1 (left quotedL)
    obtain ⟨text', found'⟩ := Option.isSome_iff_exists.1 (right quotedR)
    simp [render, found, found']

end

/-! ## Filling the pool -/

/-- The lines of the literals that take a constant, all but truth values, from left to right. -/
def Expr.pooled : Expr → List UInt32
  | .literal _ (.boolean _) => []
  | .literal line _ => [line]
  | .unary _ _ x => x.pooled
  | .group _ x => x.pooled
  | .binary _ _ l r => l.pooled ++ r.pooled

/-- Behind `c` there are constants for all of the lines, or there was no room for one of them and it
is the first of these whose line is reported. -/
inductive Compiled.Fills (c : Chunk) (lines : List UInt32) : Compiled → Prop where
  | done {d : Chunk} {heap : Heap} (size : d.constants.size = c.constants.size + lines.length)
    (room : d.constants.size ≤ Chunk.maxConstants) : Fills c lines (.ok d, heap)
  | full {e : PoolFull} {heap : Heap}
    (line : lines[Chunk.maxConstants - c.constants.size]? = some e.line) :
    Fills c lines (.error (.poolFull e), heap)

theorem Compiled.Fills.andThen {c : Chunk} {lines more : List UInt32} {done : Compiled}
    {next : Heap → Chunk → Compiled} (fills : Fills c lines done)
    (after : ∀ {heap d}, d.constants.size ≤ Chunk.maxConstants → Fills d more (next heap d)) :
    Fills c (lines ++ more) (done.andThen next) := by
  cases fills with
  | full line =>
    refine .full ?_
    rw [List.getElem?_append_left (List.getElem?_eq_some_iff.1 line).1]
    exact line
  | @done d heap size room =>
    have rest := @after heap d room
    show Fills c (lines ++ more) (next heap d)
    generalize next heap d = compiled at rest
    cases rest with
    | done size' room' =>
      refine .done ?_ room'
      rw [size', size, List.length_append, Nat.add_assoc]
    | full line =>
      refine .full ?_
      rw [List.getElem?_append_right (by omega), ← line]
      congr 1
      omega

/-- A byte behind the code takes no constant. -/
theorem Compiled.Fills.write {c : Chunk} {lines : List UInt32} {done : Compiled}
    (fills : Fills c lines done) (b : UInt8) (line : UInt32) :
    Fills c lines (done.andThen fun heap c => (.ok (c.write b line), heap)) := by
  have whole := fills.andThen fun {heap d} room =>
    show Fills d [] (.ok (d.write b line), heap) from .done rfl room
  rwa [List.append_nil] at whole

section
variable {source : String} {heap : Heap} {c : Chunk}

theorem Chunk.fills_load (c : Chunk) (heap : Heap) (v : Value) (line : UInt32) :
    Compiled.Fills c [line] (c.load heap v line) := by
  unfold load writeConstant addConstant
  by_cases full : maxConstants ≤ c.constants.size
  · rw [if_pos full]
    refine .full ?_
    rw [Nat.sub_eq_zero_of_le full]
    rfl
  · rw [if_neg full]
    have size : ((c.withConstant v).writeAll (loadBytes c.constants.size) line).constants.size =
        c.constants.size + 1 := by
      rw [constants_writeAll, withConstant, Array.size_push]
    have fits : c.constants.size + 1 ≤ maxConstants := by omega
    exact .done size (size.trans_le fits)

theorem Literal.fills_compile {value : Literal} (quoted : value.Quoted source) (line : UInt32)
    (room : c.constants.size ≤ Chunk.maxConstants) :
    Compiled.Fills c (Expr.literal line value).pooled (value.compile source line heap c) := by
  cases value with
  | boolean b => cases b <;> exact .done rfl room
  | character x => exact c.fills_load heap _ line
  | real x => exact c.fills_load heap _ line
  | integer n => exact c.fills_load heap _ line
  | string start length =>
    obtain ⟨body, cut⟩ := quoted
    obtain ⟨long, text⟩ := slice?_between cut
    rw [compile, heap.literal?_eq, if_neg (by omega), text]
    exact c.fills_load _ _ line

/-- The constants of an expression, by induction on the expression. -/
theorem Expr.fills_compile {e : Expr} (quoted : ∀ value ∈ e.literals, value.Quoted source) :
    ∀ {heap : Heap} {c : Chunk}, c.constants.size ≤ Chunk.maxConstants →
      Compiled.Fills c e.pooled (e.compile source heap c) := by
  induction e with
  | literal line value =>
    exact fun room => Literal.fills_compile (quoted value (List.mem_singleton_self _)) line room
  | group line x ih => exact ih quoted
  | unary line op x ih =>
    exact fun room => (ih quoted room).write _ line
  | binary line op l r left right =>
    obtain ⟨quotedL, quotedR⟩ := List.forall_mem_append.1 quoted
    exact fun room => (left quotedL room).andThen fun room' => (right quotedR room').write _ line

end

/-! ## Sources -/

theorem Ast.fills_compile {ast : Ast} (holds : Holds ast.source ast.expr) (heap : Heap) :
    Compiled.Fills .empty ast.expr.pooled (ast.compile heap) :=
  (@Expr.fills_compile _ _ holds.quoted heap .empty (Nat.zero_le _)).write _ _

/-- A source is no expression, or its expression fills a pool that is empty at first. -/
theorem compileSource_cases (source : String) (heap : Heap) :
    (∃ e, parse .standard .standard source = .error e ∧
      compileSource source heap = (.error (.parse e), heap)) ∨
    ∃ ast, parse .standard .standard source = .ok ast ∧
      Compiled.Fills .empty ast.expr.pooled (compileSource source heap) := by
  unfold compileSource
  cases parsed : parse .standard .standard source with
  | error e => exact .inl ⟨e, rfl, rfl⟩
  | ok ast =>
    obtain ⟨accepts, same, -⟩ := accepts_of_parse parsed
    have holds := accepts.holds
    rw [← same] at holds
    exact .inr ⟨ast, rfl, Ast.fills_compile holds heap⟩

/-- **The errors of a source.** No string literal is malformed. An error of the parser is reported as
it is, and leaves the heap alone. The pool is full just if the tree has more literals than it can
hold that are no truth values, and the line is that of the first one too many. The strings of a tree
that was parsed, under any limits, are ranges of the source with a quote at each end, and the tree
is printed. -/
theorem compileSource_fails (source : String) (heap : Heap) :
    (∀ line, (compileSource source heap).1 ≠ .error (.malformedString line)) ∧
      (∀ e, (compileSource source heap).1 = .error (.parse e) ↔
        parse .standard .standard source = .error e) ∧
      (∀ e, parse .standard .standard source = .error e → (compileSource source heap).2 = heap) ∧
      ((∃ e, (compileSource source heap).1 = .error (.poolFull e)) ↔
        ∃ ast, parse .standard .standard source = .ok ast ∧
          Chunk.maxConstants < ast.expr.pooled.length) ∧
      (∀ e ast, (compileSource source heap).1 = .error (.poolFull e) →
        parse .standard .standard source = .ok ast →
          ast.expr.pooled[Chunk.maxConstants]? = some e.line) ∧
      ∀ limits arena ast, parse limits arena source = .ok ast →
        (∀ start length, .string start length ∈ ast.expr.literals → 2 ≤ length ∧
          ∃ body, Text.slice? source start length = some (String.ofList ('"' :: (body ++ ['"'])))) ∧
        (ast.expr.render source).isSome := by
  have strings : ∀ limits arena ast, parse limits arena source = .ok ast →
      (∀ start length, .string start length ∈ ast.expr.literals → 2 ≤ length ∧
        ∃ body, Text.slice? source start length = some (String.ofList ('"' :: (body ++ ['"'])))) ∧
      (ast.expr.render source).isSome := by
    intro limits arena ast parsed
    have quoted := (accepts_of_parse parsed).1.holds.quoted
    refine ⟨fun start length inside => ?_, Expr.isSome_render quoted⟩
    obtain ⟨body, cut⟩ := quoted _ inside
    exact ⟨(slice?_between cut).1, body, cut⟩
  rcases compileSource_cases source heap with ⟨e, parsed, failed⟩ | ⟨ast, parsed, fills⟩
  · rw [failed, parsed]
    exact ⟨nofun, fun e' => by simp, fun _ _ => rfl, by simp, nofun, strings⟩
  rw [parsed]
  generalize compileSource source heap = compiled at fills
  cases fills with
  | @done d heap' size room =>
    -- the pool took all constants, so there were not too many
    have few : ast.expr.pooled.length ≤ Chunk.maxConstants := by
      rw [size] at room
      simpa [Chunk.empty] using room
    exact ⟨nofun, fun e => by simp, nofun, by simpa using few, nofun, strings⟩
  | @full e heap' line =>
    obtain ⟨many, -⟩ := List.getElem?_eq_some_iff.1 line
    refine ⟨nofun, fun e' => by simp, nofun, ?_, ?_, strings⟩
    · exact ⟨fun _ => ⟨ast, rfl, many⟩, fun _ => ⟨e, rfl⟩⟩
    · rintro _ _ ⟨⟩ ⟨⟩
      exact line

/-- An operand is missing; and a string over two lines, with a character of two bytes. -/
theorem compileSource_fails_lines :
    let heap := (Heap.new.copyString "kept").2
    compileSource "1 +" heap = (.error (.parse (.atEnd .expectedExpression 1)), heap) ∧
      ∃ ast, parse .standard .standard "\"\u00E9\n\" & 'x'" = .ok ast ∧
        (∃ body, Text.slice? "\"\u00E9\n\" & 'x'" 0 5 =
          some (String.ofList ('"' :: (body ++ ['"'])))) ∧
        (ast.expr.render "\"\u00E9\n\" & 'x'").isSome := by
  intro heap
  obtain ⟨-, reported, kept, -⟩ := compileSource_fails "1 +" heap
  obtain ⟨-, -, -, -, -, strings⟩ := compileSource_fails "\"\u00E9\n\" & 'x'" heap
  have missing : parse .standard .standard "1 +" =
      .error (.atEnd .expectedExpression 1) := by cbv
  have literals : (parse .standard .standard "\"\u00E9\n\" & 'x'").toOption.map
      (·.expr.literals) = some [.string 0 5, .character 120] := by cbv
  refine ⟨Prod.ext ((reported _).2 missing) (kept _ missing), ?_⟩
  cases parsed : parse .standard .standard "\"\u00E9\n\" & 'x'" with
  | error e =>
    rw [parsed] at literals
    cases literals
  | ok ast =>
    rw [parsed] at literals
    obtain ⟨quoted, printed⟩ := strings _ _ ast parsed
    have found : ast.expr.literals = [.string 0 5, .character 120] := Option.some.inj literals
    have inside : Literal.string 0 5 ∈ ast.expr.literals := by simp [found]
    exact ⟨ast, rfl, (quoted 0 5 inside).2, printed⟩

end Pseudocode
