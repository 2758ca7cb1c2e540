/-
  File:      FormulaGraph/Literal.lean
  Subject:   Numeric leaves.

  Some numbers have a literal of their own (`zero`, `half`, …), so one number may be written by
  several literals; `Literal.ofNumber` fixes the one that is used. `pi`, `E` and the complex
  infinity `zoo` stand for no number that could be folded.
-/
import FormulaGraph.Number
import FormulaGraph.Operator.Basic

namespace FormulaGraph

/-- A numeric leaf. -/
inductive Literal where
  | integer (value : Int)
  | rational (numer denom : Int)
  | float (value : Scalar)
  | zero
  | one
  | negativeOne
  | half
  | pi
  | exp1
  | complexInfinity
  deriving DecidableEq, Repr

namespace Literal

/-- The literal of a number. -/
def ofNumber : Number → Literal
  | .rational numer denom =>
    if numer = 0 then zero
    else if numer = 1 ∧ denom = 1 then one
    else if numer = -1 ∧ denom = 1 then negativeOne
    else if numer = 1 ∧ denom = 2 then half
    else if denom = 1 then integer numer
    else rational numer denom
  | .float value => float value

/-- The number that a literal stands for, if it can be folded. -/
def toNumber? : Literal → Option Number
  | integer value => some (.ofInt value)
  | rational numer denom => Number.quotient? numer denom
  | float value => some (.float value)
  | zero => some .zero
  | one => some .one
  | negativeOne => some (.ofInt (-1))
  | half => some (.rational 1 2)
  | pi => none
  | exp1 => none
  | complexInfinity => none

def kind : Literal → Operator
  | integer _ => .integer
  | rational .. => .rational
  | float _ => .float
  | zero => .zero
  | one => .one
  | negativeOne => .negativeOne
  | half => .half
  | pi => .pi
  | exp1 => .exp1
  | complexInfinity => .complexInfinity

/-- The value as a double. -/
def toFloat : Literal → Float
  | pi => 3.141592653589793
  | exp1 => 2.718281828459045
  | complexInfinity => 1.0 / 0.0
  | literal => (literal.toNumber?.map Number.toFloat).getD (0.0 / 0.0)

/-- The literal as a constructor call: `Integer(2)`, `Rational(1, 2)`, `pi`. -/
def text : Literal → String
  | integer value => s!"Integer({value})"
  | rational numer denom => s!"Rational({numer}, {denom})"
  | float value =>
    let body := Layout.general.render value.value
    s!"Float({body})"
  | zero => "Integer(0)"
  | one => "Integer(1)"
  | negativeOne => "Integer(-1)"
  | half => "Rational(1, 2)"
  | pi => "pi"
  | exp1 => "E"
  | complexInfinity => "zoo"

/-- A literal's kind is the kind of a literal. -/
@[simp] theorem isLiteral_kind (l : Literal) : l.kind.isLiteral = true := by
  cases l <;> rfl

end Literal

end FormulaGraph
