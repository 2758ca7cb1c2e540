/-
  File:      FormulaGraph/Decimal/Double.lean
  Subject:   What a double is, read exactly from its bits.

  * `Double` -- not a number, an infinity, or `± mantissa * 2 ^ exponent`;
  * `Double.ofFloat` -- the reading of the 64 bits.
-/

namespace FormulaGraph

/-- A double, taken apart. -/
inductive Double where
  | nan
  | infinite (negative : Bool)
  /-- The value `± mantissa * 2 ^ exponent`; the mantissa of a zero is `0`. -/
  | finite (negative : Bool) (mantissa : Nat) (exponent : Int)
  deriving DecidableEq, Repr

namespace Double

/-- The exponent of the finest doubles. -/
def leastExponent : Int := -1074

/-- One sign bit, eleven exponent bits, fifty-two bits of fraction. -/
def ofFloat (x : Float) : Double :=
  let bits := x.toBits.toNat
  let negative := Nat.pow 2 63 ≤ bits
  let biased := bits / Nat.pow 2 52 % Nat.pow 2 11
  let fraction := bits % Nat.pow 2 52
  if biased = 2047 then
    if fraction = 0 then infinite negative else nan
  else if biased = 0 then
    finite negative fraction leastExponent
  else
    finite negative (Nat.pow 2 52 + fraction) (leastExponent + (biased - 1 : Nat))

/-- Neither an infinity nor NaN. -/
def isFinite : Double → Bool
  | finite .. => true
  | _ => false

end Double

end FormulaGraph
