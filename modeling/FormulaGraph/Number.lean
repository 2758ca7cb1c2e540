/-
  File:      FormulaGraph/Number.lean
  Subject:   Numbers for constant folding: exact fractions, and doubles where those end.

  A fraction keeps numerator and denominator within 64 bits. What does not fit, and what touches a
  double, becomes a double.

  * `Number.WellFormed` -- the fractions that the operations give back: lowest terms, positive
    denominator, both parts within 64 bits;
  * `Number.quotient?` -- a fraction in lowest terms, or the double nearest to its parts' quotient;
  * `Number.add`, `Number.mul`, `Number.pow?`, `Number.modulo?` -- the arithmetic;
  * `Number.Overflow` -- a result that has more than 128 bits, at which a power stops.
-/
import FormulaGraph.Decimal.Layout
import FormulaGraph.Scalar

namespace FormulaGraph

/-- The range of signed integers of `bits` bits. -/
def fitsBits (bits : Nat) (n : Int) : Bool :=
  -(Nat.pow 2 (bits - 1) : Int) ≤ n && n < (Nat.pow 2 (bits - 1) : Int)

/-- A fraction or a double. -/
inductive Number where
  | rational (numer denom : Int)
  | float (value : Scalar)
  deriving DecidableEq, Repr

namespace Number

/-! ## 1. Values -/

/-- Lowest terms, a positive denominator, both parts within 64 bits. A double always is. -/
def WellFormed : Number → Prop
  | rational numer denom =>
    0 < denom ∧ Int.gcd numer denom = 1 ∧ fitsBits 64 numer = true ∧ fitsBits 64 denom = true
  | float _ => True

instance : DecidablePred WellFormed
  | rational _ _ => inferInstanceAs (Decidable (_ ∧ _))
  | float _ => inferInstanceAs (Decidable True)

def ofInt (n : Int) : Number := rational n 1

def zero : Number := ofInt 0

def one : Number := ofInt 1

/-- The double that stands for the number: parts are rounded first, then their quotient. -/
def toFloat : Number → Float
  | rational numer denom => Float.ofInt numer / Float.ofInt denom
  | float value => value.value

/-- The double that stands for the number, with the sign of a NaN. -/
def toScalar : Number → Scalar
  | float value => value
  | x => .ofFloat x.toFloat

/-- A zero fraction, or a double of either zero. -/
def isZero : Number → Bool
  | rational numer _ => numer == 0
  | float value => value.value == 0.0

/-- The exact one; the double `1.0` is not. -/
def isOne : Number → Bool
  | rational numer denom => numer == 1 && denom == 1
  | float _ => false

def isNegative : Number → Bool
  | rational numer _ => numer < 0
  | float value => value.value < 0.0

/-- The number as an integer, if it is an exact one. -/
def toInt? : Number → Option Int
  | rational numer denom => if denom = 1 then some numer else none
  | float _ => none

/-- The number as text: `3`, `-1/2`, `0.5`. -/
def text : Number → String
  | rational numer denom => if denom = 1 then s!"{numer}" else s!"{numer}/{denom}"
  | float value => Layout.general.render value.value

/-! ## 2. Arithmetic -/

/-- The fraction `numer / denom` in lowest terms with a positive denominator. If a part exceeds 64
    bits, the quotient of the parts as doubles; `none` for a zero denominator. -/
def quotient? (numer denom : Int) : Option Number :=
  if denom = 0 then none
  else
    let sign : Int := if denom < 0 then -1 else 1
    let divisor : Int := Int.gcd numer denom
    let n := sign * numer / divisor
    let d := sign * denom / divisor
    if fitsBits 64 n && fitsBits 64 d then some (rational n d)
    else some (float (.ofFloat (Float.ofInt n / Float.ofInt d)))

/-- A sum; exact for two fractions as far as it fits. -/
def add : Number → Number → Number
  | rational a b, rational c d => (quotient? (a * d + c * b) (b * d)).getD (float .nan)
  | x, y => float (.combine (· + ·) x.toScalar y.toScalar)

/-- A product; exact for two fractions as far as it fits. -/
def mul : Number → Number → Number
  | rational a b, rational c d => (quotient? (a * c) (b * d)).getD (float .nan)
  | x, y => float (.combine (· * ·) x.toScalar y.toScalar)

/-- An integer if it lies within 128 bits. -/
def within128 (n : Int) : Option Int := if fitsBits 128 n then some n else none

/-- `base ^ exponent` for an exponent below `2 ^ bits`, by repeated squaring; `none` as soon as a
    partial result exceeds 128 bits. -/
def checkedPower (base : Int) : (bits exponent : Nat) → Option Int
  | 0, _ => some 1
  | bits + 1, exponent => do
    let root ← checkedPower base bits (exponent / 2)
    let square ← within128 (root * root)
    if exponent % 2 = 1 then within128 (square * base) else some square

/-- A result of more than 128 bits. The program stops at it. -/
structure Overflow where
  result : Int
  deriving DecidableEq, Repr

/-- An integer that has to lie within 128 bits. -/
def strict (n : Int) : Except Overflow Int := if fitsBits 128 n then .ok n else .error ⟨n⟩

/-- `quotient?` for integers of 128 bits. Their signs are changed first if the denominator is
    negative, and the least of these integers has an opposite of 129 bits. -/
def strictQuotient? (numer denom : Int) : Except Overflow (Option Number) := do
  let sign : Int := if denom < 0 then -1 else 1
  let _ ← strict (sign * numer)
  let _ ← strict (sign * denom)
  return quotient? numer denom

/-- `(numer / denom) ^ exponent` as a fraction, if the exponent has at most 32 bits and both powers
    lie within 128 bits. -/
def exactPower? (numer denom exponent : Int) : Except Overflow (Option Number) :=
  if exponent.natAbs < Nat.pow 2 32 then
    let (above, below) := if exponent < 0 then (denom, numer) else (numer, denom)
    match checkedPower above 32 exponent.natAbs, checkedPower below 32 exponent.natAbs with
    | some n, some d => strictQuotient? n d
    | _, _ => return none
  else return none

/-- A power. There is none for a zero base and a negative exponent, for a fraction and an exponent
    that is a fraction but no integer, and where the double power is not a number. -/
def pow? (base exponent : Number) : Except Overflow (Option Number) :=
  if base.isZero && exponent.isNegative then return none
  else
    let power := Scalar.combine Float.pow base.toScalar exponent.toScalar
    match base, exponent with
    | rational numer denom, rational m n =>
      if n = 1 then do
        let exact ← exactPower? numer denom m
        return some (exact.getD (float power))
      else return none
    | _, _ => return if power.value.isNaN then none else some (float power)

/-- The remainder with the sign of the divisor; `none` for a zero divisor. -/
def modulo? (x y : Number) : Option Number :=
  if y.isZero then none
  else
    match x, y with
    | rational a b, rational c d => quotient? (Int.fmod (a * d) (c * b)) (b * d)
    | _, _ => some (float (.combine (fun a b => a - b * (a / b).floor) x.toScalar y.toScalar))

end Number

end FormulaGraph
