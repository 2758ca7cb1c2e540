/-
  File:      FormulaGraph/Text/Blank.lean
  Subject:   Blank characters: those with the Unicode property White_Space.
-/
import FormulaGraph.Text.Ranges

namespace FormulaGraph.Text

/-- The code points of White_Space. -/
def blankRanges : List (Nat × Nat) :=
  [(0x9, 0xD), (0x20, 0x20), (0x85, 0x85), (0xA0, 0xA0), (0x1680, 0x1680), (0x2000, 0x200A),
   (0x2028, 0x2029), (0x202F, 0x202F), (0x205F, 0x205F), (0x3000, 0x3000)]

/-- A character that separates tokens. -/
def isBlank (c : Char) : Bool := inRanges blankRanges c.toNat

end FormulaGraph.Text
