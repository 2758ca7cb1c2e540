/-
  File:      FormulaGraph/Scalar.lean
  Subject:   Doubles with the sign of a NaN.

  `Float` has one NaN. Constants are told apart by their bits, and a NaN has a sign bit as every
  double has; a scalar keeps it beside the `Float`. Two scalars are equal if their bits are.

  * `Scalar.ofFloat` -- a double; its NaN is the positive one;
  * `Scalar.combine` -- arithmetic: a NaN operand keeps its sign, the first if there are two, and a
    NaN that arises from numbers is negative;
  * `Scalar.read?` -- a written double; a minus sign makes a NaN negative.
-/
import FormulaGraph.Decimal.Numeral

namespace FormulaGraph

/-- A double, and whether it is a NaN with its sign bit set. -/
structure Scalar where
  value : Float
  isNegativeNaN : Bool
  isNaN_of_isNegativeNaN : isNegativeNaN = true → value.isNaN = true
  deriving DecidableEq, Repr

namespace Scalar

/-- A double whose sign is `negative` if it is NaN. -/
def signed (value : Float) (negative : Bool) : Scalar where
  value
  isNegativeNaN := negative && value.isNaN
  isNaN_of_isNegativeNaN h := (Bool.and_eq_true_iff.mp h).2

def ofFloat (value : Float) : Scalar := signed value false

def nan : Scalar := ofFloat (0.0 / 0.0)

/-- The sign of a NaN that an operation on two scalars gives. -/
def nanSign (x y : Scalar) : Bool :=
  if x.value.isNaN then x.isNegativeNaN
  else if y.value.isNaN then y.isNegativeNaN
  else true

/-- An operation on the doubles of two scalars. -/
def combine (f : Float → Float → Float) (x y : Scalar) : Scalar :=
  signed (f x.value y.value) (nanSign x y)

/-- Reads a whole text as a double. -/
def read? (text : String) : Option Scalar :=
  (readFloat? text).map (signed · (text.toList.head? == some '-'))

@[simp] theorem value_signed (value : Float) (negative : Bool) :
    (signed value negative).value = value := rfl

@[simp] theorem value_ofFloat (value : Float) : (ofFloat value).value = value := rfl

@[simp] theorem value_combine (f : Float → Float → Float) (x y : Scalar) :
    (combine f x y).value = f x.value y.value := rfl

end Scalar

end FormulaGraph
