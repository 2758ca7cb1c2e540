/-
  File:      FormulaGraph/Decimal/Shortest.lean
  Subject:   The fewest decimal digits that read back as a given double.

  Every double is the rounding of an interval of reals. The coarsest power of ten that has a
  multiple in the interval gives the shortest decimal, and of the two neighbours of the value on
  that grid the closer one is taken. All of it is exact arithmetic on naturals over one denominator.
-/

namespace FormulaGraph

/-- The number `digits * 10 ^ exponent`. -/
structure Decimal where
  digits : Nat
  exponent : Int
  deriving DecidableEq, Repr

namespace Decimal

/-- Which of two equally close decimals is written. -/
inductive Tie where
  /-- The larger. -/
  | up
  /-- The one whose last digit is even. -/
  | even
  deriving DecidableEq, Repr

/-- The reals that round to a positive double, as numerators over `den`. The ends belong to the
    interval if `closed`. -/
structure Interval where
  low : Nat
  value : Nat
  high : Nat
  den : Nat
  closed : Bool
  deriving DecidableEq, Repr

namespace Interval

/-- The interval of `mantissa * 2 ^ exponent`: half a step to each side, and a quarter step
    downwards where the steps below are half as wide. A half step rounds to the even mantissa, so
    the ends belong to an even one. -/
def around (mantissa : Nat) (exponent : Int) (finest : Bool) : Interval :=
  let below := if mantissa = Nat.pow 2 52 && !finest then 1 else 2
  let scale := Nat.pow 2 exponent.toNat
  { low := (4 * mantissa - below) * scale
    value := 4 * mantissa * scale
    high := (4 * mantissa + 2) * scale
    den := 4 * Nat.pow 2 (-exponent).toNat
    closed := mantissa % 2 == 0 }

/-- Whether `n * 10 ^ e` lies in the interval. -/
def holds (i : Interval) (e : Int) (n : Nat) : Bool :=
  let point := n * Nat.pow 10 e.toNat * i.den
  let grid := Nat.pow 10 (-e).toNat
  if i.closed then i.low * grid ≤ point && point ≤ i.high * grid
  else i.low * grid < point && point < i.high * grid

/-- The multiple of `10 ^ e` in the interval that is closest to the value, given as the factor. -/
def onGrid (i : Interval) (tie : Tie) (e : Int) : Option Nat :=
  let value := i.value * Nat.pow 10 (-e).toNat
  let grid := i.den * Nat.pow 10 e.toNat
  let n := value / grid
  match i.holds e n, i.holds e (n + 1) with
  | false, false => none
  | true, false => some n
  | false, true => some (n + 1)
  | true, true =>
    if 2 * value < (2 * n + 1) * grid then some n
    else if (2 * n + 1) * grid < 2 * value then some (n + 1)
    else match tie with
      | .up => some (n + 1)
      | .even => some (if n % 2 = 0 then n else n + 1)

/-- A power of ten above the interval of `mantissa * 2 ^ exponent`: three tenths of a bit is less
    than a decimal digit. -/
def topExponent (mantissa : Nat) (exponent : Int) : Int :=
  (mantissa.log2 + 2 + exponent) * 30103 / 100000 + 1

end Interval

/-- The shortest decimal that reads back as `mantissa * 2 ^ exponent`. Seventeen digits always
    suffice, so the search ends within the grids tried. -/
def shortest (tie : Tie) (mantissa : Nat) (exponent : Int) (finest : Bool) : Decimal :=
  let i := Interval.around mantissa exponent finest
  let top := Interval.topExponent mantissa exponent
  let found := (List.range 24).findSome? fun (k : Nat) =>
    (i.onGrid tie (top - k)).map fun n => Decimal.mk n (top - k)
  found.getD ⟨mantissa, exponent⟩

end Decimal

end FormulaGraph
