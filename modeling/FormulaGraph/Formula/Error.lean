/-
  File:      FormulaGraph/Formula/Error.lean
  Subject:   Why a text is not a formula.

  Every cause but the empty text knows the place it was found at.
-/
import FormulaGraph.Operator.Arity
import FormulaGraph.Token.Basic

namespace FormulaGraph

/-- How deep a formula may nest. -/
def depthLimit : Nat := 256

/-- The causes for which a formula is refused, in reading it or in lowering it. -/
inductive FormulaError where
  /-- A character that belongs to no token. -/
  | badToken (text : String) (span : Span)
  /-- There is no token but blanks. -/
  | empty
  /-- The formula nests deeper than `depthLimit`. -/
  | tooDeep (span : Span)
  /-- Another token was wanted at this place. -/
  | unexpected (wanted found : TokenKind) (span : Span)
  /-- No formula begins with this token. -/
  | noOperand (found : TokenKind) (span : Span)
  /-- A function is called with a number of arguments that it does not take. -/
  | wrongArity (name : String) (arity : Arity) (given : Nat) (span : Span)
  /-- The remainder by a constant zero. -/
  | moduloByZero (span : Span)
  deriving DecidableEq, Repr

namespace FormulaError

def message : FormulaError → String
  | badToken text _ => s!"Bad token `{text}`."
  | empty => "The expression is empty."
  | tooDeep _ => s!"The expression nests deeper than {depthLimit} levels."
  | unexpected wanted found _ => s!"Expected `{wanted.name}` but found `{found.name}`."
  | noOperand found _ => s!"Expected an expression but found `{found.name}`."
  | wrongArity name arity given _ =>
    s!"`{name}` takes {arity.text} argument(s) but {given} were given."
  | moduloByZero _ => "Modulo by zero."

/-- Where the cause was found. -/
def span? : FormulaError → Option Span
  | badToken _ span => some span
  | empty => none
  | tooDeep span => some span
  | unexpected _ _ span => some span
  | noOperand _ span => some span
  | wrongArity _ _ _ span => some span
  | moduloByZero span => some span

end FormulaError

end FormulaGraph
