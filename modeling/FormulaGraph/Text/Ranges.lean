/-
  File:      FormulaGraph/Text/Ranges.lean
  Subject:   Sets of characters given as ranges of code points.
-/

namespace FormulaGraph.Text

/-- Whether a code point lies in one of the ranges; both ends belong to a range. -/
def inRanges (ranges : List (Nat × Nat)) (code : Nat) : Bool :=
  ranges.any fun r => r.1 ≤ code && code ≤ r.2

end FormulaGraph.Text
