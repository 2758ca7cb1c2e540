/-
  File:      FormulaGraph/Decimal/Layout.lean
  Subject:   How a double is written.

  The digits are always the shortest that read back (`Decimal.shortest`). What differs between the
  places a double is written in is the layout:

  * `Layout.general` -- `5.0`, `0.0001`, `1e16`, `1.5e-7`;
  * `Layout.plain` -- `5`, `0.00000015`, never an exponent;
  * `Layout.script` -- `5.0`, `0.00001`, `1e+16`, `1.5e-7`.
-/
import FormulaGraph.Decimal.Double
import FormulaGraph.Decimal.Shortest

namespace FormulaGraph

/-- The decisions of a number format. -/
structure Layout where
  /-- Which of two equally close digit strings is written. -/
  tie : Decimal.Tie
  /-- The exponents of a leading digit that are written without an exponent mark; `none` for all. -/
  positional : Option (Int × Int)
  /-- Whether a whole number ends in `.0`. -/
  pointZero : Bool
  /-- Whether a positive exponent carries a `+`. -/
  plus : Bool
  deriving DecidableEq, Repr

namespace Layout

/-- Positional from a ten-thousandth up to below ten to the sixteenth. -/
def general : Layout := ⟨.up, some (-4, 15), true, false⟩

/-- Always positional, and a whole number has no point. -/
def plain : Layout := ⟨.up, none, false, false⟩

/-- The numbers of a build script: positional from a hundred-thousandth on. -/
def script : Layout := ⟨.even, some (-5, 15), true, true⟩

/-- Digits with the point in its place: `point` digits stand before it. -/
def positionalText (l : Layout) (digits : List Char) (point : Int) : List Char :=
  if point ≤ 0 then
    '0' :: '.' :: (List.replicate (-point).toNat '0' ++ digits)
  else if digits.length ≤ point then
    digits ++ List.replicate (point.toNat - digits.length) '0' ++
      (if l.pointZero then ['.', '0'] else [])
  else
    digits.take point.toNat ++ '.' :: digits.drop point.toNat

/-- One digit before the point, then the exponent of that digit. -/
def exponentText (l : Layout) (digits : List Char) (lead : Int) : List Char :=
  let fraction := digits.drop 1
  let sign := if lead < 0 then ['-'] else if l.plus then ['+'] else []
  digits.take 1 ++ (if fraction.isEmpty then [] else '.' :: fraction) ++
    'e' :: (sign ++ Nat.toDigits 10 lead.natAbs)

/-- A positive decimal in this layout. -/
def decimalText (l : Layout) (d : Decimal) : List Char :=
  let digits := Nat.toDigits 10 d.digits
  let point : Int := digits.length + d.exponent
  match l.positional with
  | none => l.positionalText digits point
  | some (least, most) =>
    if least ≤ point - 1 && point - 1 ≤ most then l.positionalText digits point
    else l.exponentText digits (point - 1)

/-- A double in this layout. A zero keeps its sign, NaN has none. -/
def render (l : Layout) (x : Float) : String :=
  let signed (negative : Bool) (body : List Char) : String :=
    String.ofList (if negative then '-' :: body else body)
  match Double.ofFloat x with
  | .nan => "NaN"
  | .infinite negative => signed negative ['i', 'n', 'f']
  | .finite negative 0 _ => signed negative (if l.pointZero then ['0', '.', '0'] else ['0'])
  | .finite negative mantissa exponent =>
    signed negative (l.decimalText
      (Decimal.shortest l.tie mantissa exponent (exponent == Double.leastExponent)))

end Layout

end FormulaGraph
