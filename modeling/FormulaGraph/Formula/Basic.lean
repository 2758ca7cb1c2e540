/-
  File:      FormulaGraph/Formula/Basic.lean
  Subject:   Formulas as trees.

  The tree keeps what the text says: a group in parentheses is a node of its own, a unary plus is
  none. Every node carries the span of the text it was read from.

  * `Formula.height` -- nodes on the longest way from the root to a leaf;
  * `Formula.spans`, `Formula.leaves` -- all nodes in order, all leaves in order.
-/
import FormulaGraph.Text.Span

namespace FormulaGraph

/-- The operators that stand between two operands. -/
inductive BinaryOp where
  | add
  | subtract
  | multiply
  | divide
  | modulo
  | power
  deriving DecidableEq, Repr

namespace BinaryOp

/-- How tightly an operator binds. A leading sign stands between products and powers. -/
def precedence : BinaryOp → Nat
  | add => 1
  | subtract => 1
  | multiply => 2
  | divide => 2
  | modulo => 2
  | power => 4

/-- `a ** b ** c` is `a ** (b ** c)`; all other operators group to the left. -/
def rightAssociative : BinaryOp → Bool
  | power => true
  | _ => false

/-- Whether `next` takes the operand that stands between `op` and `next`. -/
def bindsTighter (next op : BinaryOp) : Bool :=
  op.precedence < next.precedence || (next.rightAssociative && next.precedence == op.precedence)

def text : BinaryOp → String
  | add => "+"
  | subtract => "-"
  | multiply => "*"
  | divide => "/"
  | modulo => "%"
  | power => "**"

end BinaryOp

/-- A formula. -/
inductive Formula where
  | integer (value : Int) (span : Span)
  | float (value : Float) (span : Span)
  | symbol (name : String) (span : Span)
  | binary (op : BinaryOp) (left right : Formula) (span : Span)
  | negative (operand : Formula) (span : Span)
  | call (name : String) (arguments : List Formula) (span : Span)
  | group (inner : Formula) (span : Span)
  deriving Repr

namespace Formula

/-- The text that the formula was read from. -/
def span : Formula → Span
  | integer _ span => span
  | float _ span => span
  | symbol _ span => span
  | binary _ _ _ span => span
  | negative _ span => span
  | call _ _ span => span
  | group _ span => span

mutual
/-- The number of nodes on the longest way from the root to a leaf. -/
def height : Formula → Nat
  | integer .. => 1
  | float .. => 1
  | symbol .. => 1
  | binary _ left right _ => max left.height right.height + 1
  | negative operand _ => operand.height + 1
  | call _ arguments _ => heightAll arguments + 1
  | group inner _ => inner.height + 1

/-- The greatest height among the formulas. -/
def heightAll : List Formula → Nat
  | [] => 0
  | f :: fs => max f.height (heightAll fs)
end

mutual
/-- The spans of all nodes, each before its operands, from left to right. -/
def spans : Formula → List Span
  | integer _ span => [span]
  | float _ span => [span]
  | symbol _ span => [span]
  | binary _ left right span => span :: (left.spans ++ right.spans)
  | negative operand span => span :: operand.spans
  | call _ arguments span => span :: spansAll arguments
  | group inner span => span :: inner.spans

def spansAll : List Formula → List Span
  | [] => []
  | f :: fs => f.spans ++ spansAll fs
end

mutual
/-- The nodes without operands, from left to right. A call is none, also one without arguments. -/
def leaves : Formula → List Formula
  | integer value span => [integer value span]
  | float value span => [float value span]
  | symbol name span => [symbol name span]
  | binary _ left right _ => left.leaves ++ right.leaves
  | negative operand _ => operand.leaves
  | call _ arguments _ => leavesAll arguments
  | group inner _ => inner.leaves

def leavesAll : List Formula → List Formula
  | [] => []
  | f :: fs => f.leaves ++ leavesAll fs
end

end Formula

end FormulaGraph
