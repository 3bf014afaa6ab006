/-!
# The hash of a byte string

The 32-bit FNV-1a hash: each byte is joined to the state by exclusive or, and the state is then
multiplied by a prime.

* `fnv1a_append`: hashing goes on where it stopped.
-/
namespace Pseudocode

/-- One byte joined to the state of the hash. -/
def fnvStep (state : UInt32) (b : UInt8) : UInt32 := (state ^^^ b.toUInt32) * 16777619

/-- The 32-bit FNV-1a hash (`hash_bytes`). -/
def fnv1a (bs : List UInt8) : UInt32 := bs.foldl fnvStep 2166136261

theorem fnv1a_append (xs ys : List UInt8) : fnv1a (xs ++ ys) = ys.foldl fnvStep (fnv1a xs) := by
  simp [fnv1a]

end Pseudocode
