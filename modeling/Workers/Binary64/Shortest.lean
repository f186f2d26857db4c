import Workers.Binary64.Basic
/-! # Shortest decimal digits

`shortest` finds the fewest digits that read back as a given finite number.  On the grid of
`n`-digit decimals a number has two neighbours; if any grid point lies in the interval of reals
that round to the number, one of these two does.  The first grid with a hit wins, of two hits the
nearer, and of two equally near ones the larger.
-/
namespace Workers.Binary64

structure Ratio where
  numerator : Nat
  denominator : Nat

namespace Ratio

def ofDyadic (n : Nat) (e : Int) : Ratio :=
  if 0 ≤ e then ⟨n * Nat.pow 2 e.toNat,1⟩ else ⟨n,Nat.pow 2 (-e).toNat⟩

def ofDecimal (n : Nat) (e : Int) : Ratio :=
  if 0 ≤ e then ⟨n * Nat.pow 10 e.toNat,1⟩ else ⟨n,Nat.pow 10 (-e).toNat⟩

def lt (a b : Ratio) : Bool :=
  decide (a.numerator * b.denominator < b.numerator * a.denominator)

def le (a b : Ratio) : Bool := !b.lt a

def quotient (a b : Ratio) : Nat :=
  (a.numerator * b.denominator) / (a.denominator * b.numerator)

def add (a b : Ratio) : Ratio :=
  ⟨a.numerator * b.denominator + b.numerator * a.denominator,a.denominator * b.denominator⟩

/-- The number of decimal digits of a natural; none for zero. -/
def digitCount (n : Nat) : Nat := if n = 0 then 0 else (Nat.toDigits 10 n).length

/-- The `p` with `10 ^ (p - 1) ≤ a < 10 ^ p`. -/
def decade (a : Ratio) : Int :=
  let whole := a.numerator / a.denominator
  if whole = 0 then
    1 - (digitCount ((a.denominator + a.numerator - 1) / a.numerator - 1) : Int)
  else digitCount whole

end Ratio

/-- The reals that round to a number: `lower` and `upper` are its midpoints with its neighbours,
and belong to the interval if its significand is even. -/
structure RoundingInterval where
  lower : Ratio
  upper : Ratio
  closed : Bool

def RoundingInterval.contains (i : RoundingInterval) (a : Ratio) : Bool :=
  if i.closed then i.lower.le a && a.le i.upper else i.lower.lt a && a.lt i.upper

/-- Below a power of two the neighbours are half as far apart, except among the smallest
numbers. -/
def roundingInterval (x : Binary64) : RoundingInterval :=
  let m := x.significand
  let e := x.exponent - 2
  let below := if x.fraction = 0 && 1 < x.field then 1 else 2
  { lower := .ofDyadic (4 * m - below) e
    upper := .ofDyadic (4 * m + 2) e
    closed := m % 2 == 0 }

/-- A decimal `digits * 10 ^ exponent`. -/
structure Decimal where
  digits : Nat
  exponent : Int

/-- The better of the two `n`-digit neighbours of a number that read back, if one does. -/
def neighbour? (x : Binary64) (n : Nat) : Option Decimal :=
  let value := Ratio.ofDyadic x.significand x.exponent
  let interval := x.roundingInterval
  let grid := value.decade - n
  let low := value.quotient (.ofDecimal 1 grid)
  let lowHit := interval.contains (.ofDecimal low grid)
  let highHit := interval.contains (.ofDecimal (low + 1) grid)
  let twice := value.add value
  let highNearer := (Ratio.ofDecimal (2 * low + 1) grid).le twice
  if highHit && (highNearer || !lowHit) then some ⟨low + 1,grid⟩
  else if lowHit then some ⟨low,grid⟩
  else none

/-- Seventeen digits always read back. -/
def shortest (x : Binary64) : Decimal :=
  let n := ((List.range 16).map (· + 1)).findSome? x.neighbour?
  n.getD ((x.neighbour? 17).getD ⟨x.significand,0⟩)

/-- Digits with the trailing zeros moved into the exponent. -/
def Decimal.normalize (d : Decimal) : Decimal :=
  let text := (Nat.toDigits 10 d.digits).reverse
  let zeros := (text.takeWhile (· == '0')).length
  if d.digits = 0 then d else ⟨d.digits / Nat.pow 10 zeros,d.exponent + zeros⟩

/-- Positional notation, however many zeros it takes. -/
def Decimal.positional (d : Decimal) : String :=
  let text := Nat.toDigits 10 d.digits
  if 0 ≤ d.exponent then
    String.ofList (text ++ List.replicate d.exponent.toNat '0')
  else
    let places := (-d.exponent).toNat
    let padded := List.replicate (places + 1 - text.length) '0' ++ text
    let whole := padded.length - places
    String.ofList (padded.take whole ++ '.' :: padded.drop whole)

/-- The text of a number: the shortest digits, written positionally, with no point in an
integer and the sign kept on a zero. -/
def text (x : Binary64) : String :=
  if x.isNaN then "NaN"
  else
    let magnitude :=
      if x.isInfinite then "inf"
      else if x.isZero then "0"
      else x.shortest.normalize.positional
    if x.negative then "-" ++ magnitude else magnitude

end Workers.Binary64
