/-
  File:      FormulaGraph/Command/Label.lean
  Subject:   Headings of the command's output.
-/
import FormulaGraph.Text.Bytes

namespace FormulaGraph

/-- A line of equals signs. -/
def bar (n : Nat) : String := String.ofList (List.replicate n '=')

/-- A heading, centred in a terminal of the given width if there is one and it is wide enough. -/
def heading (width : Option Nat) (label : String) : String :=
  let size := Text.byteSize label.toList
  match width with
  | none => s!"\n{label}:\n"
  | some width =>
    if size + 4 < width then
      let room := width / 2 - 1 - size / 2
      let left := if size % 2 = 1 then room - 1 else room
      -- the column left over by halving goes to the right
      let right := if width % 2 = size % 2 then left else left + 1
      let (before, after) := (bar left, bar right)
      s!"\n{before} {label} {after}\n"
    else s!"\n{label}:\n"

end FormulaGraph
