/-
  File:      FormulaGraph/Formula/Printer.lean
  Subject:   A formula printed as an indented outline, one node a line.
-/
import FormulaGraph.Decimal.Layout
import FormulaGraph.Formula.Basic

namespace FormulaGraph.Formula

/-- The columns by which an operand stands to the right of its node. -/
def indentStep : Nat := 4

/-- One line of the outline. -/
def outlineLine (indent : Nat) (text : String) : String :=
  String.ofList (List.replicate indent ' ') ++ text ++ "\n"

mutual
/-- The outline of a formula that stands `indent` columns in. -/
def outline (indent : Nat) : Formula → String
  | integer value _ => outlineLine indent s!"Integer: {value}"
  | float value _ =>
    let text := Layout.plain.render value
    outlineLine indent s!"Float: {text}"
  | symbol name _ => outlineLine indent s!"Variable: {name}"
  | binary op left right _ =>
    outlineLine indent s!"BinaryExpression: {op.text}" ++
      left.outline (indent + indentStep) ++ right.outline (indent + indentStep)
  | negative operand _ => outlineLine indent "Negative:" ++ operand.outline (indent + indentStep)
  | call name arguments _ =>
    outlineLine indent s!"Call: {name}" ++ outlineAll (indent + indentStep) arguments
  | group inner _ => outlineLine indent "Parenthesized:" ++ inner.outline (indent + indentStep)

def outlineAll (indent : Nat) : List Formula → String
  | [] => ""
  | f :: fs => f.outline indent ++ outlineAll indent fs
end

end FormulaGraph.Formula
