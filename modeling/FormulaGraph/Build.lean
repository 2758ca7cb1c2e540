/-
  File:      FormulaGraph/Build.lean
  Subject:   From the text of a formula to a compound in a store.
-/
import FormulaGraph.Emission
import FormulaGraph.Lowering
import FormulaGraph.Plan.Compile

namespace FormulaGraph

/-- The plan of the compound that a text describes. -/
def planText (cs : List Char) (c : Catalogue) (o : CompoundOptions) : Except (Stop Failure) Plan :=
  match Table.read cs Table.empty with
  | .ok root t => (t.compile root c o).mapError .refused
  | .error stop _ => .error (stop.map .invalid)

/-- Builds the compound that a text describes. A text without a plan leaves the store alone. -/
def buildText (cs : List Char) (c : Catalogue) (o : CompoundOptions) :
    EStateM (Stop Failure) Store Compound :=
  match planText cs c o with
  | .ok plan => plan.emit.adaptExcept .refused
  | .error stop => throw stop

end FormulaGraph
