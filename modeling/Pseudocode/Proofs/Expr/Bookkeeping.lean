import Mathlib
import Pseudocode.Expr.Parser
import Pseudocode.Proofs.Expr.Allocation
import Pseudocode.Proofs.Expr.Walk
/-!
# The parser's books

The parser can be written with identifiers in place of operands. It then enters the height of every
node it stores in a table and looks up the heights of the operands there, and it counts the operand
positions that are open and compares the count with the limit (`Recorder`). Such a parser does what
`parse` does, the first time and every time (`Agree`), and its books show what the operands do not:
how many positions were open at most, and what the table says of every node.

* `Agree.bind`: what agrees step by step agrees;
* `Follows.onStream`, `Follows.store`, `Agree.guarded`: the steps;
* `agree_primary`, `agree_climb`, `simulates_operand`, `agree_parse`: the readers;
* `parse_fills_storage`: what a parse leaves in the storage and in the books.
-/
namespace Pseudocode

/-! ## Parsing with identifiers -/

/-- What a parser that works with identifiers has at hand. -/
structure Books where
  stream : TokenStream
  arena : Arena
  /-- The heights of the trees below the nodes, latest first. -/
  heights : List (NodeId × Nat)
  /-- The number of operand positions that are open. -/
  active : Nat
  /-- The largest number of them so far. -/
  peak : Nat
  deriving DecidableEq, Repr

namespace Books

/-- The height in the table; a node that is not there counts as a literal. -/
def height (b : Books) (id : NodeId) : Nat := (b.heights.lookup id).getD 1

def heightOf (b : Books) : Payload → Nat
  | .literal _ => 1
  | .unary _ x => b.height x + 1
  | .group x => b.height x + 1
  | .binary _ l r => max (b.height l) (b.height r) + 1

end Books

/-- A step of such a parser. The books are kept where it fails, too. -/
def Recorder (α : Type) : Type := Books → Except ParseError α × Books

namespace Recorder

instance : Monad Recorder where
  pure x := fun b => (.ok x, b)
  bind step next := fun b =>
    match step b with
    | (.ok x, b) => next x b
    | (.error e, b) => (.error e, b)

def books : Recorder Books := fun b => (.ok b, b)

theorem books_bind {α : Type} (next : Books → Recorder α) (b : Books) :
    (books >>= next) b = next b b := rfl

def ofExcept {α : Type} (r : Except ParseError α) : Recorder α := fun b => (r, b)

def onStream (step : TokenStream → Except ParseError TokenStream) : Recorder Unit := fun b =>
  match step b.stream with
  | .ok stream => (.ok (), { b with stream })
  | .error e => (.error e, b)

/-- Stores a node for the token and enters its height, unless that is too large. -/
def store (limits : ParseLimits) (t : Token) (payload : Payload) : Recorder NodeId := fun b =>
  let height := b.heightOf payload
  if limits.height < height then (.error (Complaint.tooComplex.about t), b)
  else
    let (id, arena) := b.arena.alloc ⟨t.line, payload⟩
    (.ok id, { b with arena, heights := (id, height) :: b.heights })

/-- Opens an operand position, if the limit allows one more, and closes it again. -/
def guarded {α : Type} (limits : ParseLimits) (body : Recorder α) : Recorder α := fun b =>
  if limits.nesting ≤ b.active then
    (.error (Complaint.nestedTooDeeply.about b.stream.current), b)
  else
    let (r, b) := body { b with active := b.active + 1, peak := max b.peak (b.active + 1) }
    (r, { b with active := b.active - 1 })

def primary (limits : ParseLimits) (operand : Nat → Recorder NodeId) (t : Token) :
    Recorder NodeId :=
  if t.kind = .symbol .leftParen then do
    let inner ← operand 1
    onStream fun s => s.expect (.symbol .rightParen) .unclosedParenthesis
    store limits t (.group inner)
  else
    match UnaryOp.ofKind? t.kind with
    | some op => do
      let x ← operand 7
      store limits t (.unary op x)
    | none => do
      let value ← ofExcept (Literal.ofToken t)
      store limits t (.literal value)

def climb (limits : ParseLimits) (operand : Nat → Recorder NodeId) (strength : Nat) :
    Nat → NodeId → Recorder NodeId
  | 0, left => pure left
  | turns + 1, left => do
    let t := (← books).stream.current
    match BinaryOp.ofKind? t.kind with
    | none => pure left
    | some op =>
      if op.strength < strength then pure left
      else do
        onStream TokenStream.advance
        let right ← operand (op.strength + 1)
        let left ← store limits t (.binary op left right)
        climb limits operand strength turns left

/-- The first argument makes the recursion end. It is not looked at where it is larger than the
limit, since the count stops the parser before. -/
def operand (limits : ParseLimits) : Nat → Nat → Recorder NodeId
  | 0, _ => fun b => (.error (Complaint.nestedTooDeeply.about b.stream.current), b)
  | levels + 1, strength => guarded limits do
    let t := (← books).stream.current
    onStream TokenStream.advance
    let left ← primary limits (operand limits levels) t
    let turns := (← books).stream.rest.length
    climb limits (operand limits levels) strength turns left

def parse (limits : ParseLimits) : Recorder NodeId := do
  onStream TokenStream.advance
  let root ← operand limits (limits.nesting + 1) 1
  onStream fun s => s.expect .endOfSource .expectedEnd
  return root

end Recorder

/-- The books of a parse at its start. -/
def Books.opening (arena : Arena) (source : String) : Books := ⟨.ofSource source, arena, [], 0, 0⟩

/-! ## Agreement -/

/-- The steps fail alike, or their results are related, and no more positions than allowed were
open. -/
inductive Agree {α β : Type} (limits : ParseLimits) (R : α → β → Books → Prop) :
    Except ParseError α → Except ParseError β × Books → Prop where
  | failed {e : ParseError} {b : Books} (low : b.peak ≤ limits.nesting) :
    Agree limits R (.error e) (.error e, b)
  | done {x : α} {y : β} {b : Books} (related : R x y b) : Agree limits R (.ok x) (.ok y, b)

theorem Agree.bind {α β γ δ : Type} {limits : ParseLimits} {R : α → β → Books → Prop}
    {Q : γ → δ → Books → Prop} {r : Except ParseError α} {next : α → Except ParseError γ}
    {step : Recorder β} {next' : β → Recorder δ} {b : Books} (agree : Agree limits R r (step b))
    (after : ∀ x y b', R x y b' → Agree limits Q (next x) (next' y b')) :
    Agree limits Q (r >>= next) ((step >>= next') b) := by
  show Agree limits Q (r >>= next)
    (match step b with
    | (.ok x, b) => next' x b
    | (.error e, b) => (.error e, b))
  generalize step b = done at agree
  cases agree with
  | failed low => exact .failed low
  | done related => exact after _ _ _ related

/-- The table has the height of every tree, and none is above the limit. -/
def Recorded (limits : ParseLimits) (a : Arena) (heights : List (NodeId × Nat)) : Prop :=
  ∀ id, (a.get? id).isSome →
    ∃ e, a.Unfolds id e ∧ heights.lookup id = some e.height ∧ e.height ≤ limits.height

/-- The books are those of the parser's state, with so many positions open. -/
structure Follows (limits : ParseLimits) (active : Nat) (s : ParseState) (b : Books) : Prop where
  stream : b.stream = s.stream
  arena : b.arena = s.arena
  active : b.active = active
  low : b.peak ≤ limits.nesting
  recorded : Recorded limits s.arena b.heights

/-- The operand is the identifier's, and all that was stored since `a`. -/
structure Delivered (limits : ParseLimits) (active : Nat) (a : Arena) (r : Operand × ParseState)
    (id : NodeId) (b : Books) : Prop where
  id : id = r.1.id
  height : r.1.height = r.1.expr.height
  adds : a.Adds r.1.id r.1.expr r.2.arena
  follows : Follows limits active r.2 b

section
variable {limits : ParseLimits} {active : Nat} {s : ParseState} {b : Books} {a : Arena}
  {x y : NodeId} {l r e : Expr}

theorem Follows.onStream (follows : Follows limits active s b)
    (step : TokenStream → Except ParseError TokenStream) :
    Agree limits (fun s' (_ : Unit) b' => Follows limits active s' b' ∧ s'.arena = s.arena)
      (do let stream ← step s.stream; return { s with stream }) (Recorder.onStream step b) := by
  unfold Recorder.onStream
  rw [follows.stream]
  cases step s.stream with
  | error e => exact .failed follows.low
  | ok stream =>
    exact .done ⟨⟨rfl, follows.arena, follows.active, follows.low, follows.recorded⟩, rfl⟩

theorem Follows.advance (follows : Follows limits active s b) :
    Agree limits (fun s' (_ : Unit) b' => Follows limits active s' b' ∧ s'.arena = s.arena)
      s.advance (Recorder.onStream TokenStream.advance b) :=
  follows.onStream _

theorem Follows.expect (follows : Follows limits active s b) (kind : Kind) (c : Complaint) :
    Agree limits (fun s' (_ : Unit) b' => Follows limits active s' b' ∧ s'.arena = s.arena)
      (s.expect kind c) (Recorder.onStream (fun stream => stream.expect kind c) b) :=
  follows.onStream fun stream => stream.expect kind c

theorem Arena.Unfolds.live (leads : a.Unfolds x e) : (a.get? x).isSome := by
  cases leads with
  | literal found | unary found _ | group found _ | binary found _ _ => simp [found]

theorem Follows.height (follows : Follows limits active s b) (leads : s.arena.Unfolds x e) :
    b.height x = e.height := by
  obtain ⟨e', leads', found, -⟩ := follows.recorded x leads.live
  rw [Books.height, found, leads.unique leads']
  rfl

/-- A new node is entered in front of the others, which keep their heights. -/
theorem Recorded.alloc {heights : List (NodeId × Nat)} (recorded : Recorded limits a heights)
    {node : Node} (leads : (a.alloc node).2.Unfolds (a.alloc node).1 e)
    (low : e.height ≤ limits.height) :
    Recorded limits (a.alloc node).2 (((a.alloc node).1, e.height) :: heights) := by
  intro id live
  by_cases new : id = (a.alloc node).1
  · subst new
    exact ⟨e, leads, by simp, low⟩
  · obtain ⟨n, found⟩ := Option.isSome_iff_exists.1 live
    have old := (Arena.get?_of_alloc found).resolve_right fun given => new given.1
    obtain ⟨e', leads', entered, low'⟩ := recorded id (by rw [old]; rfl)
    refine ⟨e', leads'.grows (a.grows_alloc node), ?_, low'⟩
    rw [List.lookup_cons, beq_false_of_ne new]
    exact entered

theorem Follows.store (follows : Follows limits active s b) {t : Token} {payload : Payload}
    (height : b.heightOf payload = e.height)
    (adds : a.Adds (s.arena.alloc ⟨t.line, payload⟩).1 e (s.arena.alloc ⟨t.line, payload⟩).2) :
    Agree limits (Delivered limits active a) (s.store limits t payload e e.height)
      (Recorder.store limits t payload b) := by
  unfold ParseState.store Recorder.store
  rw [height, follows.arena]
  dsimp only
  split
  · exact .failed follows.low
  · rename_i low
    exact .done ⟨rfl, rfl, adds, follows.stream, rfl, follows.active, follows.low,
      follows.recorded.alloc adds.unfolds (Nat.le_of_not_lt low)⟩

end

/-! ## Readers -/

/-- Wherever the books follow the parser's state the readers agree. -/
def Simulates (limits : ParseLimits) (active : Nat) (operand : OperandReader)
    (operand' : Nat → Recorder NodeId) : Prop :=
  ∀ strength s b, Follows limits active s b →
    Agree limits (Delivered limits active s.arena) (operand strength s) (operand' strength b)

section
variable {limits : ParseLimits} {active : Nat} {s : ParseState} {b : Books} {a : Arena}

/-- Opening one more position, below the limit. -/
theorem Agree.guarded {r : ParseResult} {body : Recorder NodeId}
    (follows : Follows limits active s b) (room : active < limits.nesting)
    (agree : ∀ b', Follows limits (active + 1) s b' →
      Agree limits (Delivered limits (active + 1) a) r (body b')) :
    Agree limits (Delivered limits active a) r (Recorder.guarded limits body b) := by
  unfold Recorder.guarded
  rw [if_neg (by rw [follows.active]; omega)]
  have opened := agree { b with active := b.active + 1, peak := max b.peak (b.active + 1) }
    ⟨follows.stream, follows.arena, congrArg (· + 1) follows.active,
      Nat.max_le.2 ⟨follows.low, by rw [follows.active]; exact room⟩, follows.recorded⟩
  dsimp only
  generalize body _ = done at opened
  cases opened with
  | failed low => exact .failed low
  | done delivered =>
    obtain ⟨id, height, adds, closed⟩ := delivered
    exact .done ⟨id, height, adds, closed.stream, closed.arena,
      congrArg (· - 1) closed.active, closed.low, closed.recorded⟩

variable {operand : OperandReader} {operand' : Nat → Recorder NodeId}

theorem agree_primary (simulates : Simulates limits active operand operand')
    (follows : Follows limits active s b) (t : Token) :
    Agree limits (Delivered limits active s.arena) (readPrimary limits operand t s)
      (Recorder.primary limits operand' t b) := by
  unfold readPrimary Recorder.primary
  split
  · refine (simulates 1 s b follows).bind fun (inner, s₁) id b₁ delivered => ?_
    obtain ⟨rfl, height, adds, follows₁⟩ := delivered
    dsimp only at height adds follows₁ ⊢
    refine (follows₁.expect _ _).bind fun s₂ _ b₂ closed => ?_
    obtain ⟨follows₂, same⟩ := closed
    rw [← same] at adds
    rw [height]
    exact follows₂.store (e := .group t.line inner.expr)
      (congrArg (· + 1) (follows₂.height adds.unfolds)) (adds.group t.line)
  cases UnaryOp.ofKind? t.kind with
  | some op =>
    refine (simulates 7 s b follows).bind fun (x, s₁) id b₁ delivered => ?_
    obtain ⟨rfl, height, adds, follows₁⟩ := delivered
    dsimp only at height adds follows₁ ⊢
    rw [height]
    exact follows₁.store (e := .unary t.line op x.expr)
      (congrArg (· + 1) (follows₁.height adds.unfolds)) (adds.unary t.line op)
  | none =>
    cases Literal.ofToken t with
    | error e => exact .failed follows.low
    | ok value =>
      exact follows.store (e := .literal t.line value) rfl (Arena.adds_literal _ t.line value)

/-- The loop over operators, by induction on its turns. The operand on the left is all that was
stored since `a`. -/
theorem agree_climb (simulates : Simulates limits active operand operand') (strength : Nat) :
    ∀ (turns : Nat) {left : Operand} {s : ParseState} {b : Books},
      left.height = left.expr.height → a.Adds left.id left.expr s.arena →
      Follows limits active s b →
      Agree limits (Delivered limits active a) (climb limits operand strength turns left s)
        (Recorder.climb limits operand' strength turns left.id b) := by
  intro turns
  induction turns with
  | zero =>
    intro left s b height adds follows
    exact .done ⟨rfl, height, adds, follows⟩
  | succ turns ih =>
    intro left s b height adds follows
    have stay : Agree limits (Delivered limits active a) (.ok (left, s)) (.ok left.id, b) :=
      .done ⟨rfl, height, adds, follows⟩
    unfold climb Recorder.climb
    rw [Recorder.books_bind, follows.stream]
    dsimp only
    cases BinaryOp.ofKind? s.stream.current.kind with
    | none => exact stay
    | some op =>
    dsimp only
    split
    · exact stay
    refine follows.advance.bind fun s₁ _ b₁ moved => ?_
    obtain ⟨follows₁, same⟩ := moved
    refine (simulates _ s₁ b₁ follows₁).bind fun (right, s₂) id b₂ delivered => ?_
    obtain ⟨rfl, height', adds', follows₂⟩ := delivered
    dsimp only at adds' height' follows₂ ⊢
    rw [← same] at adds
    have joined := adds.binary adds' s.stream.current.line op
    have heights : b₂.heightOf (.binary op left.id right.id) =
        (Expr.binary s.stream.current.line op left.expr right.expr).height :=
      congrArg₂ (max · · + 1) (follows₂.height (adds.unfolds.grows adds'.grows))
        (follows₂.height adds'.unfolds)
    rw [height, height']
    refine (follows₂.store heights joined).bind fun (left', s₃) id b₃ delivered => ?_
    obtain ⟨rfl, height'', adds'', follows₃⟩ := delivered
    exact ih height'' adds'' follows₃

end

/-- The reader of operands, by induction on the positions that may still be opened. -/
theorem simulates_operand (limits : ParseLimits) : ∀ (left : Nat) {active : Nat},
    active + left = limits.nesting →
    Simulates limits active (readOperand limits left) (Recorder.operand limits (left + 1)) := by
  intro left
  induction left with
  | zero =>
    intro active all strength s b follows
    unfold readOperand Recorder.operand Recorder.guarded
    rw [if_pos (by rw [follows.active]; omega), follows.stream]
    exact .failed follows.low
  | succ left ih =>
    intro active all strength s b follows
    unfold readOperand Recorder.operand
    refine .guarded follows (by omega) fun b' follows' => ?_
    have simulates := ih (show active + 1 + left = limits.nesting by omega)
    rw [Recorder.books_bind, follows'.stream]
    refine follows'.advance.bind fun s₁ _ b₁ moved => ?_
    obtain ⟨follows₁, same⟩ := moved
    refine (agree_primary simulates follows₁ _).bind fun (first, s₂) id b₂ delivered => ?_
    obtain ⟨rfl, height, adds, follows₂⟩ := delivered
    rw [Recorder.books_bind, follows₂.stream]
    rw [same] at adds
    exact agree_climb simulates strength _ height adds follows₂

theorem recorded_ofCapacity (limits : ParseLimits) (capacity : Nat) :
    Recorded limits (.ofCapacity capacity) [] := by
  intro id live
  rw [Arena.ofCapacity, Arena.get?_of_block_empty] at live
  cases live

/-- A parse into empty storage. -/
theorem agree_parse (limits : ParseLimits) (capacity : Nat) (source : String) :
    Agree limits
      (fun ast id b => id = ast.root ∧ b.arena = ast.arena ∧ b.active = 0 ∧
        b.peak ≤ limits.nesting ∧ Recorded limits ast.arena b.heights ∧
        (Arena.ofCapacity capacity).Adds ast.root ast.expr ast.arena)
      (parse limits (.ofCapacity capacity) source)
      (Recorder.parse limits (.opening (.ofCapacity capacity) source)) := by
  have follows : Follows limits 0 ⟨.ofSource source, .ofCapacity capacity⟩
      (.opening (.ofCapacity capacity) source) :=
    ⟨rfl, rfl, rfl, Nat.zero_le _, recorded_ofCapacity limits capacity⟩
  unfold parse Recorder.parse
  refine follows.advance.bind fun s₁ _ b₁ moved => ?_
  obtain ⟨follows₁, same⟩ := moved
  refine (simulates_operand limits limits.nesting (Nat.zero_add _) 1 s₁ b₁ follows₁).bind
    fun (root, s₂) id b₂ delivered => ?_
  obtain ⟨rfl, height, adds, follows₂⟩ := delivered
  dsimp only at adds follows₂ ⊢
  refine (follows₂.expect _ _).bind fun s₃ _ b₃ ended => ?_
  obtain ⟨follows₃, same'⟩ := ended
  rw [same, ← same'] at adds
  exact .done ⟨rfl, follows₃.arena, follows₃.active, follows₃.low, follows₃.recorded, adds⟩

/-- **The storage is the tree.** A parser that enters heights in a table and counts the operand
positions that are open comes to the result of `parse`, and never has more positions open than
allowed. If a source is parsed into empty storage, the post-order visit of the tree meets the nodes
of the storage in the order of their storing, each once and no others, the root last. The table has
the height of the tree below every node, which is no more than allowed, so compiling and printing
never have more calls active at once than that. -/
theorem parse_fills_storage (limits : ParseLimits) (capacity : Nat) (source : String) :
    let books := (Recorder.parse limits (.opening (.ofCapacity capacity) source)).2
    (Recorder.parse limits (.opening (.ofCapacity capacity) source)).1 =
        (parse limits (.ofCapacity capacity) source).map Ast.root ∧
      books.peak ≤ limits.nesting ∧
      ∀ ast, parse limits (.ofCapacity capacity) source = .ok ast →
        books.arena = ast.arena ∧
        ast.arena.Visits ast.root ast.expr ast.arena.ids ∧
        ast.arena.ids.Nodup ∧
        (∀ id, id ∈ ast.arena.ids ↔ (ast.arena.get? id).isSome) ∧
        ast.arena.ids.getLast? = some ast.root ∧
        (∀ id ∈ ast.arena.ids, ∃ e, ast.arena.Unfolds id e ∧
          books.heights.lookup id = some e.height ∧ e.height ≤ limits.height) ∧
        ast.arena.walkWithin (compileWalk source) limits.height ast.root =
          some (ast.expr.compile source) ∧
        ast.arena.walkWithin (renderWalk source) limits.height ast.root =
          some (ast.expr.render source) := by
  have agree := agree_parse limits capacity source
  generalize parse limits (.ofCapacity capacity) source = parsed at agree ⊢
  generalize Recorder.parse limits (.opening (.ofCapacity capacity) source) = recorded at agree ⊢
  cases agree with
  | failed low => exact ⟨rfl, low, nofun⟩
  | @done ast id b related =>
    obtain ⟨rfl, arena, -, low, heights, adds⟩ := related
    refine ⟨rfl, low, fun ast' same => ?_⟩
    obtain rfl := Except.ok.inj same
    obtain ⟨xs, visits, order⟩ := adds.nodes
    rw [Arena.ids_ofCapacity, List.nil_append] at order
    subst order
    obtain ⟨e, leads, -, fits⟩ := heights ast.root adds.unfolds.live
    rw [leads.unique adds.unfolds] at fits
    refine ⟨arena, visits, ast.arena.nodup_ids, fun id => Arena.mem_ids, visits.getLast?,
      fun id inside => heights id (Arena.mem_ids.1 inside), ?_, ?_⟩
    · rw [Arena.walkWithin_of_unfolds _ adds.unfolds, if_pos fits, fold_compileWalk]
    · rw [Arena.walkWithin_of_unfolds _ adds.unfolds, if_pos fits, fold_renderWalk]

/-- Seven nodes in blocks of one, two and three nodes and more. -/
theorem parse_fills_storage_product :
    ∃ ast, parse ⟨4, 5⟩ (.ofCapacity 1) "-(1 + 2) * 3" = .ok ast ∧
      ast.arena.ids = [⟨0, 0⟩, ⟨1, 0⟩, ⟨1, 1⟩, ⟨2, 0⟩, ⟨2, 1⟩, ⟨2, 2⟩, ⟨3, 0⟩] ∧
      ast.arena.Visits ast.root ast.expr ast.arena.ids ∧
      (Recorder.parse ⟨4, 5⟩ (.opening (.ofCapacity 1) "-(1 + 2) * 3")).2.heights.map Prod.snd =
        [5, 1, 4, 3, 2, 1, 1] ∧
      (Recorder.parse ⟨4, 5⟩ (.opening (.ofCapacity 1) "-(1 + 2) * 3")).2.peak = 4 := by
  obtain ⟨-, -, fills⟩ := parse_fills_storage ⟨4, 5⟩ 1 "-(1 + 2) * 3"
  have ids : (parse ⟨4, 5⟩ (.ofCapacity 1) "-(1 + 2) * 3").toOption.map (·.arena.ids) =
      some [⟨0, 0⟩, ⟨1, 0⟩, ⟨1, 1⟩, ⟨2, 0⟩, ⟨2, 1⟩, ⟨2, 2⟩, ⟨3, 0⟩] := by cbv
  cases parsed : parse ⟨4, 5⟩ (.ofCapacity 1) "-(1 + 2) * 3" with
  | error e =>
    rw [parsed] at ids
    cases ids
  | ok ast =>
    rw [parsed] at ids
    obtain ⟨-, visits, -⟩ := fills ast parsed
    exact ⟨ast, rfl, Option.some.inj ids, visits, by cbv, by cbv⟩

end Pseudocode
