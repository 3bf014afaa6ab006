import Pseudocode.Heap.InternTable
import Pseudocode.Text.Bytes
/-!
# The heap

Strings live on the heap and are named by handles. A string made from a literal or on request is
interned: its text is looked up first, and an equal string that was interned before is used in its
stead. The result of joining two strings is a new string that is not interned.

* `get?_push`: a new string is found under its handle while there are fewer than 2^32 strings;
* `get?_push_of_lt`: and the strings before it keep theirs.
-/
namespace Pseudocode

def textHash (text : String) : UInt32 := fnv1a (Text.bytes text)

structure StringObject where
  text : String
  /-- Has the string characters of its own? Otherwise it is a range of a source. -/
  owned : Bool
  hash : UInt32
  deriving DecidableEq, Repr

def StringObject.ofText (text : String) (owned : Bool) : StringObject :=
  ⟨text, owned, textHash text⟩

/-- The strings of a session. -/
structure Heap where
  objects : Array StringObject
  interned : InternTable
  /-- The capacity asked for when the table was made. -/
  tableCapacity : Nat
  deriving DecidableEq, Repr

namespace Heap

/-- A heap without strings whose table has at least the given capacity
(`Heap::with_table_capacity`). -/
def ofTableCapacity (capacity : Nat) : Heap := ⟨#[], .ofCapacity capacity, capacity⟩

def new : Heap := ofTableCapacity 0

def size (h : Heap) : Nat := h.objects.size

/-- The string with a handle (`Heap::get`). -/
def get? (h : Heap) (r : Handle) : Option StringObject := h.objects[r.index.toNat]?

/-- The text of the string with a handle (`Heap::as_str`). -/
def text? (h : Heap) (r : Handle) : Option String := (h.get? r).map StringObject.text

/-- A new string, and its handle (`Heap::push`). -/
def push (h : Heap) (object : StringObject) : Handle × Heap :=
  (.ofNat h.objects.size, { h with objects := h.objects.push object })

/-- The interned string with the given text (`Heap::find_interned`). -/
def findInterned (h : Heap) (text : String) : Option Handle :=
  h.interned.find? h.text? text (textHash text)

/-- The interned string with the text of `object`, which is added if there is none
(`push_interned`). -/
def intern (h : Heap) (object : StringObject) : Handle × Heap :=
  match h.findInterned object.text with
  | some r => (r, h)
  | none =>
    let (r, h) := h.push object
    (r, { h with interned := (h.interned.insert r object.hash).2 })

/-- The interned string with the given text, as characters of its own if it is new (`copy_string`).
-/
def copyString (h : Heap) (text : String) : Handle × Heap := h.intern (.ofText text true)

/-- The interned string with the text of a range of a source; `none` if it is no such range
(`ref_string`). -/
def refString? (h : Heap) (source : String) (start length : Nat) : Option (Handle × Heap) :=
  (Text.slice? source start length).map fun text => h.intern (.ofText text false)

/-- A new string with the texts of two strings joined; `none` if one of them is not on the heap
(`Heap::concat`). -/
def concat? (h : Heap) (a b : Handle) : Option (Handle × Heap) := do
  let left ← h.text? a
  let right ← h.text? b
  return h.push (.ofText (left ++ right) true)

/-- Frees all strings, and makes the table anew (`Heap::clear`). -/
def clear (h : Heap) : Heap := ofTableCapacity h.tableCapacity

/-- A new string is found under its handle. -/
theorem get?_push (h : Heap) (object : StringObject) (small : h.size < UInt32.size) :
    (h.push object).2.get? (h.push object).1 = some object := by
  have index : (Handle.ofNat h.objects.size).index.toNat = h.objects.size :=
    UInt32.toNat_ofNat_of_lt small
  rw [push, get?, index]
  simp

/-- The strings before a new string keep their handles. -/
theorem get?_push_of_lt (h : Heap) (object : StringObject) (r : Handle)
    (live : r.index.toNat < h.size) : (h.push object).2.get? r = h.get? r := by
  simp only [size] at live
  simp [push, get?, Array.getElem?_push, Nat.ne_of_lt live]

end Heap

end Pseudocode
