/-
  File:      FormulaGraph/Failure.lean
  Subject:   Why no compound was built.
-/
import FormulaGraph.Formula.Error
import FormulaGraph.Operator.Basic
import FormulaGraph.Store.Error

namespace FormulaGraph

/-- The causes for which a formula does not become a compound. -/
inductive Failure where
  /-- The text is no formula, or the formula cannot be lowered. -/
  | invalid (cause : FormulaError)
  /-- The catalogue has no node type for an operator. -/
  | unmapped (kind : Operator)
  /-- The store refused a call about `target`. -/
  | store (call : StoreCall) (target : String) (source : StoreError)
  /-- The expression has more nodes than are allowed. -/
  | tooLarge (count limit : Nat)
  /-- Building failed, and so did undoing it. -/
  | rollback (cause : Failure) (source : StoreError)
  deriving DecidableEq, Repr

namespace Failure

/-- The text of an invalid formula's failure. -/
def invalidText (message : String) : String := s!"invalid expression: {message}"

def message : Failure → String
  | invalid cause => invalidText cause.message
  | unmapped kind => s!"no graph node type is registered for `{kind.name}`"
  | store call target source => s!"backend could not {call.name} `{target}`: {source.message}"
  | tooLarge count limit => s!"expression has {count} distinct nodes, the limit is {limit}"
  | rollback cause source => s!"rollback after \"{cause.message}\" failed: {source.message}"

end Failure

end FormulaGraph
