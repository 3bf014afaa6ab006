import Pseudocode.Bytecode.Chunk
import Pseudocode.Image.Wire
/-!
# Images

An image is a chunk that needs no heap: its string constants are texts. It is written as a version
byte and the fields of the wire format, one behind the other; bytes behind the last field are
ignored.

Loading an image interns its strings on a heap, in the order of the constants, and only then looks
at the line table.
-/
namespace Pseudocode

/-- A constant that needs no heap. -/
inductive Constant where
  | boolean (b : Bool)
  | character (c : UInt8)
  | real (x : Binary64)
  | integer (n : Int64)
  | text (t : String)
  deriving DecidableEq, Repr

/-- A chunk that needs no heap. -/
structure Image where
  code : List UInt8
  lines : List LineRun
  constants : List Constant
  deriving DecidableEq, Repr

/-- Why there is no image, or no chunk for it. -/
inductive ImageError where
  | empty
  | version (found : UInt8)
  | malformed (e : Wire.WireError)
  | lineTable
  | danglingString (index : Nat)
  /-- The file of the image cannot be read or written. -/
  | file (reason : String)
  deriving DecidableEq, Repr

def Image.version : UInt8 := 1

def ImageError.message : ImageError → String
  | empty => "empty image"
  | version found =>
    "unsupported image version " ++ toString found ++ " (expected " ++ toString Image.version ++ ")"
  | malformed e => "deserialization error: " ++ e.message
  | lineTable => "line table does not cover the code"
  | danglingString index =>
    "constant " ++ toString index ++ " refers to a string missing from the heap"
  | file reason => "I/O error: " ++ reason

namespace Constant

open Wire

/-- A constant behind the number of its kind. -/
def write : Constant → List UInt8
  | boolean b => writeVarint 0 ++ writeTruth b
  | character c => writeVarint 1 ++ [c]
  | real x => writeVarint 2 ++ writeReal x
  | integer n => writeVarint 3 ++ writeVarint (zigzag n.toInt)
  | text t => writeVarint 4 ++ writeText t

/-- A constant of the kind with the given number. -/
def readKind : Nat → Reader Constant
  | 0, bs => do
    let (b, bs) ← readTruth bs
    return (boolean b, bs)
  | 1, bs => do
    let (c, bs) ← readByte bs
    return (character c, bs)
  | 2, bs => do
    let (x, bs) ← readReal bs
    return (real x, bs)
  | 3, bs => do
    let (n, bs) ← readNat64 bs
    return (integer (Int64.ofInt (unzigzag n)), bs)
  | 4, bs => do
    let (t, bs) ← readText bs
    return (text t, bs)
  | _, _ => throw .badTag

/-- A constant behind the number of its kind. -/
def read : Reader Constant := fun bs => do
  let (kind, bs) ← readNat32 bs
  readKind kind bs

/-- The constant for a value; `none` if it is a string that is not on the heap. -/
def ofValue? (heap : Heap) : Value → Option Constant
  | .boolean b => some (boolean b)
  | .character c => some (character c)
  | .real x => some (real x)
  | .integer n => some (integer n)
  | .string r => (heap.text? r).map text

/-- The value of a constant, strings interned on a heap. -/
def toValue (heap : Heap) : Constant → Value × Heap
  | boolean b => (.boolean b, heap)
  | character c => (.character c, heap)
  | real x => (.real x, heap)
  | integer n => (.integer n, heap)
  | text t => let (r, heap) := heap.copyString t; (.string r, heap)

/-- The constants for values, the first of which has the given index. -/
def ofValues (heap : Heap) : Nat → List Value → Except ImageError (List Constant)
  | _, [] => .ok []
  | index, v :: vs =>
    match ofValue? heap v with
    | none => .error (.danglingString index)
    | some c => (ofValues heap (index + 1) vs).map (c :: ·)

/-- The values of constants, strings interned on a heap one after the other. -/
def toValues : Heap → List Constant → List Value × Heap
  | heap, [] => ([], heap)
  | heap, c :: cs =>
    let (v, heap) := c.toValue heap
    let (vs, heap) := toValues heap cs
    (v :: vs, heap)

end Constant

namespace LineRun

open Wire

def encode (r : LineRun) : List UInt8 := writeVarint r.line.toNat ++ writeVarint r.count.toNat

def decode : Reader LineRun := fun bs => do
  let (line, bs) ← readNat32 bs
  let (count, bs) ← readNat32 bs
  return (⟨UInt32.ofNat line, UInt32.ofNat count⟩, bs)

end LineRun

namespace Image

open Wire

/-- The fields of an image, one behind the other. -/
def writeFields (image : Image) : List UInt8 :=
  writeBlock image.code ++ writeSequence LineRun.encode image.lines ++
    writeSequence Constant.write image.constants

/-- The fields of an image, one behind the other. -/
def readFields : Reader Image := fun bs => do
  let (code, bs) ← readBlock bs
  let (lines, bs) ← readSequence LineRun.decode bs
  let (constants, bs) ← readSequence Constant.read bs
  return (⟨code, lines, constants⟩, bs)

/-- The image as bytes (`ChunkImage::encode`). -/
def encode (image : Image) : List UInt8 := version :: image.writeFields

/-- The image at the front of some bytes, and the bytes behind it. -/
def decodeFront : List UInt8 → Except ImageError (Image × List UInt8)
  | [] => .error .empty
  | v :: bs => if v = version then (readFields bs).mapError .malformed else .error (.version v)

/-- The image at the front of some bytes (`ChunkImage::decode`). -/
def decode (bs : List UInt8) : Except ImageError Image := (decodeFront bs).map Prod.fst

/-- The image of a chunk whose strings are on the given heap (`from_chunk`). -/
def ofChunk (c : Chunk) (heap : Heap) : Except ImageError Image :=
  (Constant.ofValues heap 0 c.constants.toList).map fun constants =>
    ⟨c.code.toList, c.lines.toList, constants⟩

/-- The chunk of an image, its strings interned on a heap (`into_chunk`). -/
def toChunk (image : Image) (heap : Heap) : Except ImageError Chunk × Heap :=
  let (constants, heap) := Constant.toValues heap image.constants
  match Chunk.ofParts? image.code.toArray constants.toArray image.lines.toArray with
  | some c => (.ok c, heap)
  | none => (.error .lineTable, heap)

/-- The chunk in some bytes, its strings interned on a heap (`load_image`). -/
def load (bs : List UInt8) (heap : Heap) : Except ImageError Chunk × Heap :=
  match decode bs with
  | .ok image => image.toChunk heap
  | .error e => (.error e, heap)

end Image

end Pseudocode
