/-
  File:      FormulaGraph/Json/Numbers.lean
  Subject:   The numbers that JSON numerals stand for.

  A double is read in three steps: the digits that fit into 64 bits make the significand, the digits
  that do not only move the point, and the significand is multiplied or divided by a power of ten.
  Each step rounds on its own. A number beyond the doubles is none.
-/
import FormulaGraph.Decimal.Double
import FormulaGraph.Decimal.Numeral

namespace FormulaGraph.Json

/-- A written number: its sign and its numeral. -/
def numeralOf : List Char → Bool × Numeral
  | '-' :: cs => (true, (Numeral.scan cs).1)
  | cs => (false, (Numeral.scan cs).1)

/-- The grammar of JSON numbers: no leading zeros, and digits on both sides of a point. -/
def isNumeral (n : Numeral) : Bool :=
  (n.whole.head? != some '0' || n.whole.length == 1) && !n.whole.isEmpty && n.fraction != some []

/-- The number at the front of a text as it is written, and the rest. -/
def scanNumber? (cs : List Char) : Option (List Char × List Char) :=
  let sign := cs.takeWhile (· == '-')
  let (n, rest) := Numeral.scan (cs.drop sign.length)
  if sign.length ≤ 1 && isNumeral n then some (sign ++ n.text, rest) else none

/-- The natural number that is written, if it is at most `limit`. A point, an exponent and a sign
    are refused, also in front of a zero. -/
def natural? (limit : Nat) (written : List Char) : Option Nat :=
  let (negative, n) := numeralOf written
  let value := digitsValue n.whole
  if !negative && n.isWhole && value ≤ limit then some value else none

/-- Digits taken into a significand of 64 bits. -/
structure Significand where
  value : Nat := 0
  /-- The power of ten that the significand is to be multiplied by. -/
  exponent : Int := 0
  deriving DecidableEq, Repr

namespace Significand

/-- Whether one more digit exceeds 64 bits. -/
def isFull (s : Significand) (digit : Nat) : Bool := Nat.pow 2 64 ≤ s.value * 10 + digit

def digitOf (c : Char) : Nat := c.toNat - '0'.toNat

/-- The digits before the point. From the first that does not fit, each only counts. -/
def takeWhole (s : Significand) : List Char → Significand
  | [] => s
  | c :: cs =>
    if s.isFull (digitOf c) then { s with exponent := s.exponent + (cs.length + 1 : Nat) }
    else takeWhole { s with value := s.value * 10 + digitOf c } cs

/-- The digits behind the point. From the first that does not fit, all are dropped. -/
def takeFraction (s : Significand) : List Char → Significand
  | [] => s
  | c :: cs =>
    if s.isFull (digitOf c) then s
    else takeFraction ⟨s.value * 10 + digitOf c, s.exponent - 1⟩ cs

def ofNumeral (n : Numeral) : Significand :=
  let s := (({} : Significand).takeWhole n.whole).takeFraction (n.fraction.getD [])
  { s with exponent := s.exponent + (n.exponent.map Exponent.value).getD 0 }

end Significand

/-- The greatest power of ten that is a double. -/
def greatestPower : Nat := 308

def powerOfTen (n : Nat) : Float := Float.ofScientific 1 false n

/-- Division by a power of ten, in portions. Three portions make a zero of every significand. -/
def scaleDown : (portions : Nat) → Float → Nat → Float
  | 0, _, _ => 0.0
  | portions + 1, x, n =>
    if n ≤ greatestPower then x / powerOfTen n
    else scaleDown portions (x / powerOfTen greatestPower) (n - greatestPower)

/-- A significand times a power of ten; `none` beyond the doubles. -/
def scaled? (s : Significand) : Option Float :=
  let x := Float.ofNat s.value
  if s.value = 0 then some 0.0
  else if s.exponent < 0 then some (scaleDown 3 x s.exponent.natAbs)
  else if greatestPower < s.exponent.natAbs then none
  else
    let y := x * powerOfTen s.exponent.natAbs
    if y.isInf then none else some y

/-- The double that is written. -/
def double? (written : List Char) : Option Float :=
  let (negative, n) := numeralOf written
  (scaled? (Significand.ofNumeral n)).map fun x => if negative then -x else x

end FormulaGraph.Json
