import Pseudocode.Bytecode.Chunk
import Pseudocode.Expr.Parser
/-!
# From an expression to a chunk

Code is written operands first, then the operator, and ends with the return of the value. Groups
write nothing. The text of a string literal is interned as a range of the source, without its
quotes.

Compiling changes the heap even where it fails: the strings in front of the offending literal stay
interned.
-/
namespace Pseudocode

/-- Why a source does not compile. -/
inductive CompileError where
  | parse (e : ParseError)
  | poolFull (e : PoolFull)
  /-- A string literal is no range of the source, or has no room for its quotes. -/
  | malformedString (line : UInt32)
  deriving DecidableEq, Repr

namespace CompileError

/-- The line to which the error belongs (`CompileError::line`). -/
def line : CompileError → UInt32
  | parse e => e.line
  | poolFull e => e.line
  | malformedString line => line

def message : CompileError → String
  | parse e => e.message
  | poolFull e => e.message
  | malformedString line => "line " ++ toString line ++ ": malformed string literal"

end CompileError

/-- What compiling comes to, with the heap it leaves. -/
abbrev Compiled := Except CompileError Chunk × Heap

/-- Writes the load of a constant (`emit_constant`). -/
def Chunk.load (c : Chunk) (heap : Heap) (v : Value) (line : UInt32) : Compiled :=
  match c.writeConstant v line with
  | .ok (_, c) => (.ok c, heap)
  | .error e => (.error (.poolFull e), heap)

/-- The handle of a string literal's text without the quotes (`string_literal`). Places are natural
numbers here and words of the machine in the program. That is the same as long as the end of the
literal fits a word, which it does in every tree that was read from a source. -/
def Heap.literal? (heap : Heap) (source : String) (start length : Nat) : Option (Handle × Heap) :=
  if length < 2 then none else heap.refString? source (start + 1) (length - 2)

def Literal.compile (source : String) (line : UInt32) (heap : Heap) (c : Chunk) :
    Literal → Compiled
  | .boolean true => (.ok (c.write Opcode.pushTrue.toByte line), heap)
  | .boolean false => (.ok (c.write Opcode.pushFalse.toByte line), heap)
  | .character x => c.load heap (.character x) line
  | .real x => c.load heap (.real x) line
  | .integer n => c.load heap (.integer n) line
  | .string start length =>
    match heap.literal? source start length with
    | none => (.error (.malformedString line), heap)
    | some (r, heap) => c.load heap (.string r) line

/-- Goes on with the chunk, if there is one. -/
def Compiled.andThen (done : Compiled) (next : Heap → Chunk → Compiled) : Compiled :=
  match done with
  | (.ok c, heap) => next heap c
  | (.error e, heap) => (.error e, heap)

/-- Writes the code of an expression, operands first (`compile_node`). -/
def Expr.compile (source : String) : Expr → Heap → Chunk → Compiled
  | .literal line value, heap, c => value.compile source line heap c
  | .group _ x, heap, c => x.compile source heap c
  | .unary line op x, heap, c =>
    Compiled.andThen (x.compile source heap c) fun heap c =>
      (.ok (c.write (Opcode.ofUnary op).toByte line), heap)
  | .binary line op l r, heap, c =>
    Compiled.andThen (l.compile source heap c) fun heap c =>
      Compiled.andThen (r.compile source heap c) fun heap c =>
        (.ok (c.write (Opcode.ofBinary op).toByte line), heap)

/-- The chunk of a syntax tree (`Compiler::compile`). -/
def Ast.compile (ast : Ast) (heap : Heap) : Compiled :=
  Compiled.andThen (ast.expr.compile ast.source heap .empty) fun heap c =>
    (.ok (c.write Opcode.finish.toByte ast.expr.line), heap)

/-- The chunk of a source (`compile_source`). -/
def compileSource (source : String) (heap : Heap) : Compiled :=
  match parse .standard .standard source with
  | .error e => (.error (.parse e), heap)
  | .ok ast => ast.compile heap

end Pseudocode
