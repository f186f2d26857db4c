/-! # Binary64 numbers by their bits

A double-precision number is its 64-bit word.  Everything about it is computed exactly from the
three fields of the word, so that comparison, the integer it stands for and rounding from an
integer are statements about naturals and integers.
-/
namespace Workers

structure Binary64 where
  bits : UInt64
  deriving DecidableEq, Inhabited

namespace Binary64

def fraction (x : Binary64) : Nat := x.bits.toNat % Nat.pow 2 52

def field (x : Binary64) : Nat := x.bits.toNat / Nat.pow 2 52 % Nat.pow 2 11

def negative (x : Binary64) : Bool := decide (Nat.pow 2 63 ≤ x.bits.toNat)

def isNaN (x : Binary64) : Bool := x.field == 2047 && x.fraction != 0

def isInfinite (x : Binary64) : Bool := x.field == 2047 && x.fraction == 0

/-- Both zeros have no bit set below the sign. -/
def isZero (x : Binary64) : Bool := x.bits.toNat % Nat.pow 2 63 == 0

/-- A finite number has magnitude `significand * 2 ^ exponent`. -/
def significand (x : Binary64) : Nat :=
  if x.field = 0 then x.fraction else x.fraction + Nat.pow 2 52

def exponent (x : Binary64) : Int :=
  if x.field = 0 then -1074 else (x.field : Int) - 1075

/-- The magnitude as a natural number, where it is one. -/
def magnitude? (x : Binary64) : Option Nat :=
  if x.field = 2047 then none
  else if 0 ≤ x.exponent then some (x.significand * Nat.pow 2 x.exponent.toNat)
  else
    let unit := Nat.pow 2 (-x.exponent).toNat
    if x.significand % unit = 0 then some (x.significand / unit) else none

/-- The integer that a number is equal to; fractions, infinities and NaNs have none. -/
def toInt? (x : Binary64) : Option Int :=
  x.magnitude?.map fun n => if x.negative then -(n : Int) else n

/-- Numeric equality: a NaN is equal to nothing, the two zeros are equal, and any two other
numbers are equal only if they are the same word. -/
def same (x y : Binary64) : Bool :=
  !x.isNaN && !y.isNaN && (x == y || (x.isZero && y.isZero))

/-- `n / 2 ^ k` rounded to the nearest natural, a half to the even neighbour. -/
def roundShift (n k : Nat) : Nat :=
  let unit := Nat.pow 2 k
  let quotient := n / unit
  let twice := 2 * (n % unit)
  if unit < twice || (twice == unit && quotient % 2 == 1) then quotient + 1 else quotient

/-- The word of the number nearest to `n`, for `n` below the overflow threshold.  A significand
that rounds up to `2 ^ 53` carries into the exponent field by itself. -/
def magnitudeWord (n : Nat) : Nat :=
  if n = 0 then 0
  else
    let top := Nat.log2 n
    let significand := if top ≤ 52 then n * Nat.pow 2 (52 - top) else roundShift n (top - 52)
    (top + 1022) * Nat.pow 2 52 + significand

def ofInt (i : Int) : Binary64 :=
  let word := magnitudeWord i.natAbs
  ⟨UInt64.ofNat (if i < 0 then word + Nat.pow 2 63 else word)⟩

end Binary64

end Workers
