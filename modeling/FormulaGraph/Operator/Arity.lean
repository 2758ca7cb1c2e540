/-
  File:      FormulaGraph/Operator/Arity.lean
  Subject:   How many arguments a function takes.
-/

namespace FormulaGraph

/-- The numbers of arguments a function accepts. -/
inductive Arity where
  | exactly (count : Nat)
  | between (least most : Nat)
  | atLeast (least : Nat)
  deriving DecidableEq, Repr

namespace Arity

def accepts : Arity → Nat → Bool
  | exactly count, n => n == count
  | between least most, n => least ≤ n && n ≤ most
  | atLeast least, n => least ≤ n

/-- The arity as error messages give it. -/
def text : Arity → String
  | exactly count => s!"{count}"
  | between least most => s!"{least} to {most}"
  | atLeast least => s!"at least {least}"

end Arity

end FormulaGraph
