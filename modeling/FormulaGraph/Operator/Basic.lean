/-
  File:      FormulaGraph/Operator/Basic.lean
  Subject:   The kinds of nodes that are no symbols.

  Arithmetic, literals and functions all have a kind; the catalogue of node types is keyed on it.
  A called function that is not known by name is a kind of its own, `Operator.undefined`.
-/

namespace FormulaGraph

/-- The kind of a literal or an operation. -/
inductive Operator where
  | add
  | mul
  | pow
  | mod
  | integer
  | rational
  | float
  | zero
  | one
  | negativeOne
  | half
  | pi
  | exp1
  | complexInfinity
  | abs
  | exp
  | log
  | sin
  | cos
  | tan
  | cot
  | sec
  | csc
  | asin
  | acos
  | atan
  | atan2
  | sinh
  | cosh
  | tanh
  | asinh
  | acosh
  | atanh
  | min
  | max
  | floor
  | ceiling
  | sqrt
  | cbrt
  | undefined (name : String)
  deriving DecidableEq, Repr

namespace Operator

/-- The name that a kind is printed by. An undefined function may bear the name of another kind. -/
def name : Operator → String
  | add => "Add"
  | mul => "Mul"
  | pow => "Pow"
  | mod => "Mod"
  | integer => "Integer"
  | rational => "Rational"
  | float => "Float"
  | zero => "Zero"
  | one => "One"
  | negativeOne => "NegativeOne"
  | half => "Half"
  | pi => "Pi"
  | exp1 => "Exp1"
  | complexInfinity => "ComplexInfinity"
  | abs => "Abs"
  | exp => "exp"
  | log => "log"
  | sin => "sin"
  | cos => "cos"
  | tan => "tan"
  | cot => "cot"
  | sec => "sec"
  | csc => "csc"
  | asin => "asin"
  | acos => "acos"
  | atan => "atan"
  | atan2 => "atan2"
  | sinh => "sinh"
  | cosh => "cosh"
  | tanh => "tanh"
  | asinh => "asinh"
  | acosh => "acosh"
  | atanh => "atanh"
  | min => "Min"
  | max => "Max"
  | floor => "floor"
  | ceiling => "ceiling"
  | sqrt => "sqrt"
  | cbrt => "cbrt"
  | undefined name => name

/-- Every kind but the undefined functions. -/
def builtIn : List Operator :=
  [add, mul, pow, mod, integer, rational, float, zero, one, negativeOne, half, pi, exp1,
   complexInfinity, abs, exp, log, sin, cos, tan, cot, sec, csc, asin, acos, atan, atan2, sinh,
   cosh, tanh, asinh, acosh, atanh, min, max, floor, ceiling, sqrt, cbrt]

/-- The built-in kind of a name. -/
def ofName? (name : String) : Option Operator := builtIn.find? (·.name == name)

/-- Whether a kind is that of a literal. -/
def isLiteral : Operator → Bool
  | integer | rational | float | zero | one | negativeOne | half | pi | exp1 | complexInfinity =>
    true
  | _ => false

end Operator

end FormulaGraph
