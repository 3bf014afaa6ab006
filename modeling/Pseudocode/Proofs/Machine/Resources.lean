import Pseudocode.Proofs.Bytecode.PostOrder
import Pseudocode.Proofs.Machine.Correctness
import Pseudocode.Proofs.Machine.Fitting
import Pseudocode.Proofs.Machine.Totality
/-!
# What a run costs

The instructions of an expression in post-order say how high the stack is behind each of them. If
the expression has a value, its run takes these instructions one by one, with just these heights,
until it is over or an instruction crosses a limit: the limit of steps is checked before an
instruction, the limit of the stack when it pushes.

* `Visit.course`: the instructions by their lines, with the heights behind them;
* `MachineLimits.crossed?`: the first limit that a course crosses;
* `Spends.append`: code behind other code;
* `Expr.spends`: the code of an expression, by induction on the expression;
* `Arena.Built.run_spends`: runs of trees whose nodes were stored operands first.
-/
namespace Pseudocode

/-! ## Courses -/

/-- The height of the stack behind an action. -/
def Action.height (before : Nat) : Action → Nat
  | literal _ => before + 1
  | unary _ => before
  | binary _ | finish => before - 1

namespace Visit

/-- Line and height behind it for each visit, given the height before the first. -/
def course : Nat → List Visit → List (UInt32 × Nat)
  | _, [] => []
  | before, v :: vs => (v.line, v.action.height before) :: course (v.action.height before) vs

/-- The height behind the last visit. -/
def heightAfter (before : Nat) (vs : List Visit) : Nat :=
  vs.foldl (fun height v => v.action.height height) before

theorem course_append (before : Nat) (vs ws : List Visit) :
    course before (vs ++ ws) = course before vs ++ course (heightAfter before vs) ws := by
  induction vs generalizing before with
  | nil => rfl
  | cons v vs ih => exact congrArg _ (ih _)

theorem length_course (before : Nat) (vs : List Visit) : (course before vs).length = vs.length := by
  induction vs generalizing before with
  | nil => rfl
  | cons v vs ih => exact congrArg _ (ih _)

theorem heightAfter_append (before : Nat) (vs ws : List Visit) :
    heightAfter before (vs ++ ws) = heightAfter (heightAfter before vs) ws :=
  List.foldl_append

end Visit

namespace Expr

/-- An expression leaves one value. -/
theorem heightAfter_postOrder (e : Expr) (before : Nat) :
    Visit.heightAfter before e.postOrder = before + 1 := by
  induction e generalizing before with
  | literal line value => rfl
  | group line x ih => exact ih before
  | unary line op x ih =>
    rw [postOrder, Visit.heightAfter_append, ih]
    rfl
  | binary line op l r ihl ihr =>
    rw [postOrder, Visit.heightAfter_append, Visit.heightAfter_append, ihl, ihr]
    rfl

/-- The course of an expression: that of its operands, and one value in their stead. -/
theorem course_unary (before : Nat) (line : UInt32) (op : UnaryOp) (x : Expr) :
    Visit.course before (unary line op x).postOrder =
      Visit.course before x.postOrder ++ [(line, before + 1)] := by
  rw [postOrder, Visit.course_append, heightAfter_postOrder]
  rfl

theorem course_binary (before : Nat) (line : UInt32) (op : BinaryOp) (l r : Expr) :
    Visit.course before (binary line op l r).postOrder =
      Visit.course before l.postOrder ++
        (Visit.course (before + 1) r.postOrder ++ [(line, before + 1)]) := by
  rw [postOrder, Visit.course_append, Visit.course_append, heightAfter_postOrder,
    heightAfter_postOrder]
  rfl

/-- The greatest height on the course of an expression is its peak. -/
theorem peak_course (e : Expr) (before : Nat) :
    (∀ p ∈ Visit.course before e.postOrder, p.2 ≤ before + e.peak) ∧
      ∃ p ∈ Visit.course before e.postOrder, p.2 = before + e.peak := by
  induction e generalizing before with
  | literal line value => simp [postOrder, Visit.course, Action.height, peak]
  | group line x ih => exact ih before
  | unary line op x ih =>
    obtain ⟨low, p, inside, high⟩ := ih before
    rw [course_unary]
    refine ⟨fun q within => ?_, p, List.mem_append_left _ inside, high⟩
    rcases List.mem_append.1 within with within | within
    · exact low q within
    · obtain rfl := List.mem_singleton.1 within
      exact Nat.add_le_add_left x.peak_pos _
  | binary line op l r ihl ihr =>
    obtain ⟨lowl, p, insidel, highl⟩ := ihl before
    obtain ⟨lowr, q, insider, highr⟩ := ihr (before + 1)
    rw [course_binary, peak]
    constructor
    · intro s within
      rcases List.mem_append.1 within with within | within
      · have := lowl s within
        omega
      rcases List.mem_append.1 within with within | within
      · have := lowr s within
        omega
      · obtain rfl := List.mem_singleton.1 within
        have := l.peak_pos
        dsimp only
        omega
    · rcases Nat.le_total l.peak (r.peak + 1) with le | le
      · refine ⟨q, List.mem_append_right _ (List.mem_append_left _ insider), ?_⟩
        omega
      · refine ⟨p, List.mem_append_left _ insidel, ?_⟩
        omega

end Expr

/-! ## Limits on a course -/

namespace MachineLimits

/-- The error of the first instruction of a course that crosses a limit. Steps are checked first. -/
def crossed? (limits : MachineLimits) : Nat → List (UInt32 × Nat) → Option RunError
  | _, [] => none
  | steps, (line, height) :: more =>
    match limits.exceeded? (steps + 1) with
    | some f => some ⟨f, some line⟩
    | none =>
      if limits.stack < height then some ⟨.stackLimit limits.stack, some line⟩
      else crossed? limits (steps + 1) more

variable {limits : MachineLimits}

theorem crossed?_append (steps : Nat) (xs ys : List (UInt32 × Nat)) :
    limits.crossed? steps (xs ++ ys) =
      (limits.crossed? steps xs).or (limits.crossed? (steps + xs.length) ys) := by
  induction xs generalizing steps with
  | nil => rfl
  | cons x xs ih =>
    rw [List.cons_append, crossed?, crossed?]
    cases limits.exceeded? (steps + 1) with
    | some f => rfl
    | none =>
      dsimp only
      by_cases full : limits.stack < x.2
      · rw [if_pos full, if_pos full]
        rfl
      · rw [if_neg full, if_neg full, ih, List.length_cons, Nat.add_assoc, Nat.add_comm 1]

theorem exceeded?_eq_none_iff {steps : Nat} :
    limits.exceeded? steps = none ↔ limits.Allows steps := by
  unfold exceeded? Allows
  cases limits.steps with
  | none => simp
  | some most =>
    rw [Option.bind_some]
    by_cases beyond : most < steps
    · rw [if_pos beyond]
      exact ⟨nofun, fun allows => absurd (allows most rfl) (Nat.not_le_of_lt beyond)⟩
    · rw [if_neg beyond]
      refine ⟨fun _ most' same => ?_, fun _ => rfl⟩
      obtain rfl := Option.some.inj same
      exact Nat.le_of_not_lt beyond

theorem Allows.le {steps fewer : Nat} (allows : limits.Allows steps) (le : fewer ≤ steps) :
    limits.Allows fewer :=
  fun most limited => Nat.le_trans le (allows most limited)

/-- Nothing is crossed just if there are enough steps, and the stack may get as high. -/
theorem crossed?_eq_none_iff {course : List (UInt32 × Nat)} :
    ∀ {steps : Nat}, limits.Allows steps → (limits.crossed? steps course = none ↔
      limits.Allows (steps + course.length) ∧ ∀ p ∈ course, p.2 ≤ limits.stack) := by
  induction course with
  | nil => exact fun allowed => ⟨fun _ => ⟨allowed, List.forall_mem_nil _⟩, fun _ => rfl⟩
  | cons p course ih =>
    intro steps allowed
    rw [crossed?, List.forall_mem_cons, List.length_cons]
    cases exceeded : limits.exceeded? (steps + 1) with
    | some f =>
      have beyond : ¬ limits.Allows (steps + 1) := fun allows => by
        rw [exceeded?_eq_none_iff.2 allows] at exceeded
        cases exceeded
      exact ⟨nofun, fun fits => absurd (fits.1.le (by omega)) beyond⟩
    | none =>
      dsimp only
      by_cases full : limits.stack < p.2
      · rw [if_pos full]
        exact ⟨nofun, fun fits => absurd fits.2.1 (Nat.not_le_of_lt full)⟩
      · rw [if_neg full, ih (exceeded?_eq_none_iff.1 exceeded), Nat.add_assoc,
          Nat.add_comm 1, and_congr_right_iff]
        exact fun _ => ⟨fun rest => ⟨Nat.le_of_not_lt full, rest⟩, fun both => both.2⟩

end MachineLimits

/-! ## Runs along a course -/

section
variable {limits : MachineLimits} {c : Chunk} {s t u : RunState}

/-- The run gets from one state to another, with these heights of the stack behind each turn. -/
inductive Passes (limits : MachineLimits) (c : Chunk) : RunState → List Nat → RunState → Prop where
  | refl (s : RunState) : Passes limits c s [] s
  | turn {s t u : RunState} {heights : List Nat} (next : s.turn limits c = .next t)
    (rest : Passes limits c t heights u) :
    Passes limits c s (t.memory.stack.size :: heights) u

theorem Passes.append {xs ys : List Nat} (first : Passes limits c s xs t)
    (second : Passes limits c t ys u) : Passes limits c s (xs ++ ys) u := by
  induction first with
  | refl => exact second
  | turn next _ ih => exact .turn next (ih second)

theorem Passes.run_eq {heights : List Nat} (passes : Passes limits c s heights t) :
    s.run limits c = t.run limits c := by
  induction passes with
  | refl => rfl
  | turn next _ ih => rw [RunState.run_eq, next, ← ih]

/-- The heights at which the turns of a run begin, if it is over with the next turn. -/
theorem Passes.visited {heights : List Nat} (passes : Passes limits c s heights t)
    {result : Except RunError Value} (last : t.turn limits c = .halt result u) :
    (s.visited limits c).map (fun r => r.memory.stack.size) =
      s.memory.stack.size :: heights := by
  induction passes with
  | refl => rw [RunState.visited_of_halt last]; rfl
  | turn next _ ih => rw [RunState.visited_of_next next, List.map_cons, ih last]

/-- The run from `s` goes along a course to `offset`, where a value that fits the constant is on top
of `rest`, unless an instruction of the course crosses a limit and ends the run. -/
inductive Spends (limits : MachineLimits) (c : Chunk) (s : RunState) (rest : List Value)
    (course : List (UInt32 × Nat)) (offset : Nat) (a : Constant) : Prop where
  | passes {v : Value} {heap : Heap} (inside : limits.crossed? s.steps course = none)
    (passes : Passes limits c s (course.map Prod.snd)
      ⟨offset, s.steps + course.length, s.memory.leave (v :: rest) heap⟩)
    (fits : Fits heap v a) (grows : s.memory.heap.Grows heap)
  | stops {e told : RunError} (crossed : limits.crossed? s.steps course = some told)
    (run : (s.run limits c).1 = .error e) (reports : c.Reports e told)

/-- Code behind other code. -/
theorem Spends.append {rest₁ rest : List Value} {xs ys : List (UInt32 × Nat)}
    {offset₁ offset : Nat} {a b : Constant} (first : Spends limits c s rest₁ xs offset₁ a)
    (second : ∀ {v heap}, Fits heap v a → s.memory.heap.Grows heap →
      Spends limits c ⟨offset₁, s.steps + xs.length, s.memory.leave (v :: rest₁) heap⟩ rest ys
        offset b) : Spends limits c s rest (xs ++ ys) offset b := by
  cases first with
  | stops crossed run reports =>
    refine .stops ?_ run reports
    rw [MachineLimits.crossed?_append, crossed]
    rfl
  | passes inside along fits grows =>
    have whole : limits.crossed? s.steps (xs ++ ys) = limits.crossed? (s.steps + xs.length) ys := by
      rw [MachineLimits.crossed?_append, inside]
      rfl
    cases second fits grows with
    | stops crossed run reports =>
      exact .stops (whole.trans crossed) (along.run_eq ▸ run) reports
    | passes inside' along' fits' grows' =>
      refine .passes (whole.trans inside') ?_ fits' (grows.trans grows')
      rw [List.map_append, List.length_append, ← Nat.add_assoc]
      exact along.append along'

/-- One instruction that pushes its result onto `rest`. -/
theorem spends_of_pushes {op : Opcode} {line : UInt32} {rest : List Value} {a : Constant}
    (found : c.code[s.offset]? = some op.toByte)
    (lined : c.size < 2 ^ 32 → c.lineAt? s.offset = some line)
    (bounded : s.memory.stack.limit = limits.stack)
    (pushes : s.memory.Pushes rest (s.memory.execute c s.offset op) a) :
    Spends limits c s rest [(line, rest.length + 1)] (s.offset + (1 + op.operandSize)) a := by
  obtain ⟨v, heap, effect, fits, grows⟩ := pushes
  cases exceeded : limits.exceeded? (s.steps + 1) with
  | some f =>
    have crossed : limits.crossed? s.steps [(line, rest.length + 1)] = some ⟨f, some line⟩ := by
      rw [MachineLimits.crossed?, exceeded]
    have run : (s.run limits c).1 = .error ⟨f, c.lineAt? s.offset⟩ := by
      rw [RunState.run_eq, RunState.turn_of_exceeded found exceeded]
    exact .stops crossed run ⟨rfl, lined⟩
  | none =>
    have turn := RunState.turn_of_opcode found exceeded
    rw [effect, Memory.push_leave, bounded] at turn
    by_cases full : limits.stack ≤ rest.length
    · have crossed : limits.crossed? s.steps [(line, rest.length + 1)] =
          some ⟨.stackLimit limits.stack, some line⟩ := by
        rw [MachineLimits.crossed?, exceeded]
        exact if_pos (Nat.lt_succ_of_le full)
      have run : (s.run limits c).1 =
          .error ⟨.stackLimit limits.stack, c.lineAt? s.offset⟩ := by
        rw [if_pos full] at turn
        rw [RunState.run_eq, turn]
      exact .stops crossed run ⟨rfl, lined⟩
    · rw [if_neg full] at turn
      refine .passes ?_ (.turn turn (.refl _)) fits grows
      rw [MachineLimits.crossed?, exceeded]
      exact if_neg (Nat.not_lt_of_le (Nat.lt_of_not_le full))

end

/-! ## Expressions -/

section
variable {source : String} {limits : MachineLimits} {whole : Chunk}

theorem Expr.eval_unary_eq_ok {line : UInt32} {op : UnaryOp} {x : Expr} {b : Constant}
    (value : (unary line op x).eval source = .ok b) :
    ∃ a, x.eval source = .ok a ∧ op.apply a = .ok b := by
  rw [eval] at value
  cases operand : x.eval source with
  | error e => rw [operand] at value; cases value
  | ok a =>
    rw [operand] at value
    exact ⟨a, rfl, eq_ok_of_mapError value⟩

theorem Expr.eval_binary_eq_ok {line : UInt32} {op : BinaryOp} {l r : Expr} {k : Constant}
    (value : (binary line op l r).eval source = .ok k) :
    ∃ a b, l.eval source = .ok a ∧ r.eval source = .ok b ∧ op.apply a b = .ok k := by
  rw [eval] at value
  cases left : l.eval source with
  | error e => rw [left] at value; cases value
  | ok a =>
    cases right : r.eval source with
    | error e => rw [left, right] at value; cases value
    | ok b =>
      rw [left, right] at value
      exact ⟨a, b, rfl, rfl, eq_ok_of_mapError value⟩

theorem Literal.spends {value : Literal} {line : UInt32} {heap heap' : Heap} {c d : Chunk}
    {s : RunState} (h : value.compile source line heap c = (.ok d, heap')) (lined : c.Lined)
    (inside : d.Grows whole) (here : s.offset = c.size) (grows : heap'.Grows s.memory.heap)
    (bounded : s.memory.stack.limit = limits.stack) :
    Spends limits whole s s.memory.stack.values [(line, s.memory.stack.values.length + 1)] d.size
      (value.denote source) := by
  rcases compile_cases h with ⟨b, rfl, rfl, rfl⟩ | ⟨v, loaded, stored, -⟩
  · have found := Chunk.getElem?_of_write inside
    have line' := Chunk.lineAt?_of_write lined inside
    rw [← here] at found line'
    rw [Chunk.size_write, ← here]
    cases b with
    | true =>
      exact spends_of_pushes found line' bounded
        ⟨_, s.memory.heap, rfl, .boolean true true, .refl _⟩
    | false =>
      exact spends_of_pushes found line' bounded
        ⟨_, s.memory.heap, rfl, .boolean false false, .refl _⟩
  · obtain ⟨-, small, rfl⟩ := Chunk.load_eq_ok loaded
    obtain ⟨found, line', carried, constant⟩ := Chunk.loadsNext lined small inside
    rw [← here] at found line' carried
    rw [Chunk.size_load, ← here]
    refine spends_of_pushes found line' bounded ?_
    rw [Memory.execute_load]
    exact Memory.pushes_load carried constant (stored.fits.grows grows)

/-- The code of an expression that has a value, by induction on the expression. -/
theorem Expr.spends {e : Expr} : ∀ {heap heap' : Heap} {c d : Chunk} {s : RunState} {a : Constant},
    e.compile source heap c = (.ok d, heap') → c.Lined → d.Grows whole → s.offset = c.size →
    heap'.Grows s.memory.heap → s.memory.stack.limit = limits.stack → e.eval source = .ok a →
    Spends limits whole s s.memory.stack.values
      (Visit.course s.memory.stack.values.length e.postOrder) d.size a := by
  induction e with
  | literal line value =>
    intro heap heap' c d s a h lined inside here grows bounded value
    cases value
    exact Literal.spends h lined inside here grows bounded
  | group line x ih => exact ih
  | unary line op x ih =>
    intro heap heap' c d s b h lined inside here grows bounded value
    obtain ⟨c₁, heap₁, first, last⟩ := Compiled.andThen_eq_ok.1 h
    cases last
    obtain ⟨a, operand, applied⟩ := eval_unary_eq_ok value
    obtain ⟨code₁, -⟩ := Expr.grows_compile first
    have inside₁ := (c₁.grows_write _ line).trans inside
    rw [course_unary]
    refine Spends.append (ih first lined inside₁ here grows bounded operand) ?_
    intro v heap fits _
    have found := Chunk.getElem?_of_write inside
    have line' := Chunk.lineAt?_of_write (code₁.lined lined) inside
    rw [c₁.size_writeUnary]
    exact spends_of_pushes found line' bounded (Memory.pushes_applyUnary rfl fits applied _ _)
  | binary line op l r ihl ihr =>
    intro heap heap' c d s k h lined inside here grows bounded value
    obtain ⟨c₁, heap₁, first, h⟩ := Compiled.andThen_eq_ok.1 h
    obtain ⟨c₂, heap₂, second, last⟩ := Compiled.andThen_eq_ok.1 h
    cases last
    obtain ⟨a, b, left, right, applied⟩ := eval_binary_eq_ok value
    obtain ⟨code₁, -⟩ := Expr.grows_compile first
    obtain ⟨code₂, grows₂⟩ := Expr.grows_compile second
    have inside₂ := (c₂.grows_write _ line).trans inside
    rw [course_binary]
    refine Spends.append
      (ihl first lined (code₂.trans inside₂) here (grows₂.trans grows) bounded left) ?_
    intro v heap fits kept
    refine Spends.append
      (ihr second (code₁.lined lined) inside₂ rfl (grows.trans kept) bounded right) ?_
    intro w heap fits' kept'
    have found := Chunk.getElem?_of_write inside
    have line' := Chunk.lineAt?_of_write ((code₁.trans code₂).lined lined) inside
    rw [c₂.size_writeBinary]
    have left' : Fits heap v a := fits.grows kept'
    exact spends_of_pushes found line' bounded
      (Memory.pushes_applyBinary rfl left' fits' applied _ _)

end

/-! ## Runs of chunks -/

theorem Expr.course_visits (e : Expr) :
    Visit.course 0 e.visits = Visit.course 0 e.postOrder ++ [(e.line, 0)] := by
  rw [visits, Visit.course_append, heightAfter_postOrder]
  rfl

/-- The limits allow the whole course of an expression just if they allow its length and peak. -/
theorem Expr.crossed?_visits_eq_none_iff (e : Expr) (limits : MachineLimits) :
    limits.crossed? 0 (Visit.course 0 e.visits) = none ↔
      limits.Allows (e.postOrder.length + 1) ∧ e.peak ≤ limits.stack := by
  rw [MachineLimits.crossed?_eq_none_iff fun _ _ => Nat.zero_le _, Visit.length_course, visits,
    List.length_append, Nat.zero_add, List.length_singleton, ← visits, e.course_visits]
  refine and_congr_right fun _ => ?_
  obtain ⟨low, p, inside, high⟩ := e.peak_course 0
  constructor
  · intro allowed
    have := allowed p (List.mem_append_left _ inside)
    omega
  · intro enough q within
    rcases List.mem_append.1 within with within | within
    · have := low q within
      omega
    · obtain rfl := List.mem_singleton.1 within
      exact Nat.zero_le _

/-- Of states with the heights of a course, one has the peak of the expression and none has more. -/
theorem Expr.peak_of_heights (e : Expr) {states : List RunState}
    (heights : (states.map fun s => s.memory.stack.size) =
      0 :: (Visit.course 0 e.postOrder).map Prod.snd) :
    states.length = e.postOrder.length + 1 ∧ (∀ s ∈ states, s.memory.stack.size ≤ e.peak) ∧
      ∃ s ∈ states, s.memory.stack.size = e.peak := by
  obtain ⟨low, p, there, high⟩ := e.peak_course 0
  rw [Nat.zero_add] at high
  have sizes (n : Nat) : n ∈ (states.map fun s => s.memory.stack.size) ↔
      n = 0 ∨ n ∈ (Visit.course 0 e.postOrder).map Prod.snd := by
    rw [heights, List.mem_cons]
  refine ⟨?_, fun s visited => ?_, ?_⟩
  · have count := congrArg List.length heights
    rw [List.length_map, List.length_cons, List.length_map, Visit.length_course] at count
    exact count
  · rcases (sizes _).1 (List.mem_map_of_mem visited) with empty | higher
    · exact empty ▸ Nat.zero_le _
    · obtain ⟨q, within, same⟩ := List.mem_map.1 higher
      have bound := low q within
      rw [Nat.zero_add] at bound
      exact same ▸ bound
  · obtain ⟨s, visited, same⟩ := List.mem_map.1
      ((sizes p.2).2 (.inr (List.mem_map_of_mem there)))
    exact ⟨s, visited, same.trans high⟩

/-- The run of a tree that has a value goes along the course of its expression. It is over with a
value behind the last instruction, or with the error of the first that crosses a limit, on the line
of that one if the lines of all bytes can be counted. -/
theorem Ast.run_along_course {ast : Ast} {heap heap' : Heap} {c : Chunk} {a : Constant}
    (h : ast.compile heap = (.ok c, heap')) (value : ast.expr.eval ast.source = .ok a)
    (limits : MachineLimits) {now : Heap} (grows : heap'.Grows now) :
    (∃ e told, limits.crossed? 0 (Visit.course 0 ast.expr.visits) = some told ∧
      (c.run limits now).1 = .error e ∧ c.Reports e told) ∨
    (limits.crossed? 0 (Visit.course 0 ast.expr.visits) = none ∧
      ∃ v, (c.run limits now).1 = .ok v ∧
        (c.run limits now).2.steps = ast.expr.visits.length ∧
        (((RunState.start limits now).visited limits c).map fun s => s.memory.stack.size) =
          0 :: (Visit.course 0 ast.expr.postOrder).map Prod.snd) := by
  obtain ⟨body, heap₁, compiled, last⟩ := Compiled.andThen_eq_ok.1 h
  cases last
  have inside := body.grows_write Opcode.finish.toByte ast.expr.line
  obtain ⟨code, -⟩ := Expr.grows_compile compiled
  have found := Chunk.getElem?_of_write (.refl (body.write Opcode.finish.toByte ast.expr.line))
  have lined := Chunk.lineAt?_of_write (code.lined Chunk.lined_empty)
    (.refl (body.write Opcode.finish.toByte ast.expr.line))
  have spends := Expr.spends (s := .start limits now) compiled Chunk.lined_empty inside rfl grows
    rfl value
  change Spends limits _ _ [] (Visit.course 0 ast.expr.postOrder) _ _ at spends
  rw [ast.expr.course_visits, MachineLimits.crossed?_append]
  cases spends with
  | stops crossed run reports =>
    change limits.crossed? 0 _ = _ at crossed
    rw [crossed]
    exact .inl ⟨_, _, rfl, run, reports⟩
  | @passes v heap₂ inside' along fits _ =>
    change limits.crossed? 0 _ = _ at inside'
    let last : RunState := ⟨body.size, 0 + (Visit.course 0 ast.expr.postOrder).length,
      (RunState.start limits now).memory.leave [v] heap₂⟩
    change Passes _ _ _ _ last at along
    rw [inside', Option.none_or, MachineLimits.crossed?, Chunk.run, along.run_eq]
    cases exceeded : limits.exceeded? (0 + (Visit.course 0 ast.expr.postOrder).length + 1) with
    | some f =>
      have turn := RunState.turn_of_exceeded (s := last) found exceeded
      rw [RunState.run_eq, turn]
      exact .inl ⟨_, _, rfl, rfl, rfl, lined⟩
    | none =>
      have turn := RunState.turn_of_finish (s := last) found exceeded rfl
      rw [RunState.run_eq, turn, along.visited turn]
      refine .inr ⟨if_neg (Nat.not_lt_zero _), v, rfl, ?_, rfl⟩
      show 0 + (Visit.course 0 ast.expr.postOrder).length + 1 = _
      rw [Visit.length_course, Expr.visits, List.length_append, Nat.zero_add]
      rfl

/-- What a run of a tree that has a value costs: as many turns as there are nodes that are no
groups, and one for the return, with just as many values on the stack at once as the peak of the
expression says. So it ends with a value just if the limits allow so much. If not, it ends with the
fault of the first instruction that crosses a limit, and on the line of that instruction if the code
has fewer than 2^32 bytes. -/
theorem Arena.Built.run_spends {arena : Arena} (built : arena.Built) {root : NodeId}
    (live : (arena.get? root).isSome) (source : String) :
    ∃ ast, Ast.ofArena? source arena root = some ast ∧ ∀ heap c heap' a,
      ast.compile heap = (.ok c, heap') → ast.expr.eval source = .ok a →
      ∀ (limits : MachineLimits) (now : Heap), heap'.Grows now →
        let nodes := ast.expr.postOrder
        let states := (RunState.start limits now).visited limits c
        ((c.run limits now).1.isOk ↔
          limits.Allows (nodes.length + 1) ∧ ast.expr.peak ≤ limits.stack) ∧
        ((c.run limits now).1.isOk → (c.run limits now).2.steps = nodes.length + 1 ∧
          states.length = nodes.length + 1 ∧
          (∀ s ∈ states, s.memory.stack.size ≤ ast.expr.peak) ∧
          ∃ s ∈ states, s.memory.stack.size = ast.expr.peak) ∧
        (∀ f, (∃ line, (c.run limits now).1 = .error ⟨f, line⟩) ↔
          ∃ line, limits.crossed? 0 (Visit.course 0 ast.expr.visits) = some ⟨f, line⟩) ∧
        (c.size < 2 ^ 32 → ∀ e, (c.run limits now).1 = .error e ↔
          limits.crossed? 0 (Visit.course 0 ast.expr.visits) = some e) := by
  obtain ⟨expr, read⟩ := built.expr? live
  refine ⟨⟨source, arena, root, expr⟩, ?_, ?_⟩
  · rw [Ast.ofArena?, read]
    rfl
  intro heap c heap' a compiled value limits now grows nodes states
  have fits := expr.crossed?_visits_eq_none_iff limits
  rcases Ast.run_along_course compiled value limits grows with
    ⟨⟨f, line⟩, ⟨f', line'⟩, crossed, failed, fault, lined⟩ | ⟨inside, v, done, steps, heights⟩
  · have refused : ¬ (c.run limits now).1.isOk = true := by
      rw [failed]
      exact Bool.false_ne_true
    obtain rfl : f = f' := fault
    refine ⟨⟨fun ok => absurd ok refused, fun enough => ?_⟩, fun ok => absurd ok refused,
      fun g => ?_, fun few e => ?_⟩
    · rw [fits.2 enough] at crossed
      cases crossed
    · simp [failed, crossed]
    · obtain rfl : line = line' := lined few
      rw [failed, crossed, Option.some_inj, Except.error.injEq]
  · have accepted : (c.run limits now).1.isOk = true := by
      rw [done]
      rfl
    have length : expr.visits.length = nodes.length + 1 := by
      rw [Expr.visits, List.length_append, List.length_singleton]
    refine ⟨⟨fun _ => fits.1 inside, fun _ => accepted⟩,
      fun _ => ⟨steps.trans length, expr.peak_of_heights heights⟩, fun f => ?_, fun _ e => ?_⟩
    · simp [done, inside]
    · simp [done, inside]

/-- The sum of a shared number and its square: six turns and three values. One turn less misses the
return, one value less the third load; where both limits are crossed at once it is that of steps. -/
theorem Arena.Built.run_spends_shared :
    let leaf := (Arena.ofCapacity 3).alloc ⟨1, .literal (.integer 3)⟩
    let square := leaf.2.alloc ⟨2, .binary .multiply leaf.1 leaf.1⟩
    let sum := square.2.alloc ⟨3, .binary .add leaf.1 square.1⟩
    ∃ ast c heap, Ast.ofArena? "" sum.2 sum.1 = some ast ∧ ast.compile .new = (.ok c, heap) ∧
      (c.run ⟨3, some 6⟩ heap).1.isOk ∧
      (c.run ⟨3, some 5⟩ heap).1 = .error ⟨.stepLimit 5, some 3⟩ ∧
      (c.run ⟨2, some 6⟩ heap).1 = .error ⟨.stackLimit 2, some 1⟩ ∧
      (c.run ⟨2, some 2⟩ heap).1 = .error ⟨.stepLimit 2, some 1⟩ := by
  intro leaf square sum
  have built : sum.2.Built :=
    .alloc (.alloc (.alloc (.ofCapacity 3) _ (by simp [Payload.operands])) _ (by decide)) _
      (by decide)
  obtain ⟨ast, read, spends⟩ := @Arena.Built.run_spends sum.2 built sum.1 (by decide) ""
  let three : Expr := .literal 1 (.integer 3)
  let whole : Expr := .binary 3 .add three (.binary 2 .multiply three three)
  obtain rfl : ⟨"", sum.2, sum.1, whole⟩ = ast := Option.some.inj (Eq.trans rfl read)
  have accepted : (Ast.compile ⟨"", sum.2, sum.1, whole⟩ .new).1.isOk = true := by cbv
  obtain ⟨c, heap, compiled⟩ := Compiled.exists_of_isOk accepted
  have value : whole.eval "" = .ok (.integer 12) := by rfl
  have few : c.size < 2 ^ 32 := by
    rw [(Ast.spells_compile compiled).code.last_eq]
    decide
  have costs (limits : MachineLimits) := spends .new c heap _ compiled value limits heap (.refl _)
  refine ⟨_, c, heap, read, compiled, ?_, ?_, ?_, ?_⟩
  · refine (costs ⟨3, some 6⟩).1.2 ⟨fun most limited => ?_, by decide⟩
    obtain rfl := Option.some.inj limited
    decide
  · exact ((costs ⟨3, some 5⟩).2.2.2 few _).2 (by rfl)
  · exact ((costs ⟨2, some 6⟩).2.2.2 few _).2 (by rfl)
  · exact ((costs ⟨2, some 2⟩).2.2.2 few _).2 (by rfl)

end Pseudocode
