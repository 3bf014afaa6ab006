import Pseudocode.Number.Rounding
/-!
# Real numbers

A real number of the language is a binary floating-point number of 64 bits, kept as its bit pattern:
a sign, eleven exponent bits and fifty-two fraction bits. A finite number is `m * 2 ^ q` for a
natural number `m` and an integer `q`; an operation computes its exact result as a quotient and
rounds once, to the nearest number, a half to the even neighbour.

An invalid operation gives `Binary64.invalid`. An operation on a number that is not a number gives
the first such operand with its quiet bit set, so a bit pattern stays recognisable.
-/
namespace Pseudocode

structure Binary64 where
  bits : UInt64
  deriving DecidableEq, Repr

namespace Binary64

/-! ## Bit patterns -/

def signBit : Nat := 0x8000000000000000

/-- All exponent bits: the magnitude of infinity. -/
def infinityMagnitude : Nat := 0x7FF0000000000000

/-- The lowest exponent bit: a significand has it above its fraction bits, unless its number is too
small. -/
def hiddenBit : Nat := 0x0010000000000000

/-- The number of given sign and magnitude bits. -/
def ofMagnitude (negative : Bool) (magnitude : Nat) : Binary64 :=
  ⟨UInt64.ofNat (if negative then signBit + magnitude else magnitude)⟩

def negative (x : Binary64) : Bool := signBit ≤ x.bits.toNat

def magnitude (x : Binary64) : Nat := x.bits.toNat % signBit

def isNaN (x : Binary64) : Bool := infinityMagnitude < x.magnitude

def isInfinite (x : Binary64) : Bool := x.magnitude = infinityMagnitude

def isZero (x : Binary64) : Bool := x.magnitude = 0

def zero (negative : Bool) : Binary64 := ofMagnitude negative 0

def infinity (negative : Bool) : Binary64 := ofMagnitude negative infinityMagnitude

/-- The result of an operation that has none, such as zero divided by zero. -/
def invalid : Binary64 := ofMagnitude true 0x7FF8000000000000

/-- A number that is not a number, with its quiet bit set. -/
def quiet (x : Binary64) : Binary64 := ⟨x.bits ||| 0x0008000000000000⟩

/-! ## Exact values -/

/-- The whole significand `m` of a finite number `m * 2 ^ q`. -/
def significand (x : Binary64) : Nat :=
  if x.magnitude < hiddenBit then x.magnitude else x.magnitude % hiddenBit + hiddenBit

/-- The exponent `q` of a finite number `m * 2 ^ q`. -/
def exponent (x : Binary64) : Int :=
  if x.magnitude < hiddenBit then -1074 else (x.magnitude / hiddenBit : Nat) - 1075

/-- The absolute value of a finite number as a quotient. -/
def ratio (x : Binary64) : Nat × Nat :=
  (x.significand <<< x.exponent.toNat, 1 <<< (-x.exponent).toNat)

/-- The number nearest to `num / den` with the given sign; a half goes to the even neighbour, and
what is too large to infinity. -/
def ofRatio (negative : Bool) (num den : Nat) : Binary64 :=
  if num = 0 then zero negative
  else
    let q := max (floorLog2 num den - 52) (-1074)
    let m := roundDiv (num <<< (-q).toNat) (den <<< q.toNat)
    ofMagnitude negative (min infinityMagnitude ((q + 1074).toNat * hiddenBit + m))

/-! ## Operations -/

def neg (x : Binary64) : Binary64 := ⟨x.bits ^^^ 0x8000000000000000⟩

/-- `op x y`, unless one of them is not a number. -/
def guardNaN (op : Binary64 → Binary64 → Binary64) (x y : Binary64) : Binary64 :=
  if x.isNaN then x.quiet else if y.isNaN then y.quiet else op x y

/-- The sum of two finite numbers. An exact zero is negative only if both are. -/
def addFinite (x y : Binary64) : Binary64 :=
  let q := min x.exponent y.exponent
  let scaled (z : Binary64) : Int :=
    let m : Int := (z.significand <<< (z.exponent - q).toNat : Nat)
    if z.negative then -m else m
  let sum := scaled x + scaled y
  if sum = 0 then zero (x.negative && y.negative)
  else ofRatio (sum < 0) (sum.natAbs <<< q.toNat) (1 <<< (-q).toNat)

/-- The sum of two numbers. Infinities of opposite sign have none. -/
def add : Binary64 → Binary64 → Binary64 :=
  guardNaN fun x y =>
    if x.isInfinite then if y.isInfinite && x.negative != y.negative then invalid else x
    else if y.isInfinite then y
    else addFinite x y

def sub : Binary64 → Binary64 → Binary64 := guardNaN fun x y => add x y.neg

/-- The product of two numbers. Zero times infinity has none. -/
def mul : Binary64 → Binary64 → Binary64 :=
  guardNaN fun x y =>
    let negative := x.negative != y.negative
    if x.isInfinite || y.isInfinite then
      if x.isZero || y.isZero then invalid else infinity negative
    else ofRatio negative (x.ratio.1 * y.ratio.1) (x.ratio.2 * y.ratio.2)

/-- The quotient of two numbers. Two zeros and two infinities have none. -/
def div : Binary64 → Binary64 → Binary64 :=
  guardNaN fun x y =>
    let negative := x.negative != y.negative
    if x.isInfinite then if y.isInfinite then invalid else infinity negative
    else if y.isInfinite then zero negative
    else if y.isZero then if x.isZero then invalid else infinity negative
    else ofRatio negative (x.ratio.1 * y.ratio.2) (x.ratio.2 * y.ratio.1)

/-! ## Order -/

/-- The place of a number in the order of all numbers; the two zeros have one place. -/
def place (x : Binary64) : Int := if x.negative then -x.magnitude else x.magnitude

/-- How two numbers compare; what is not a number compares with nothing. -/
def compare? (x y : Binary64) : Option Ordering :=
  if x.isNaN || y.isNaN then none else some (compare x.place y.place)

end Binary64

end Pseudocode
