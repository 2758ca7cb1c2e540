/-
  File:      FormulaGraph/Text/Lines.lean
  Subject:   Lines of a text and the place of a byte offset in them.

  A line ends behind its newline. The text `"a\nb"` has the lines `"a\n"` and `"b"`; a text that
  ends in a newline has an empty last line. Lines and offsets count from zero.
-/
import FormulaGraph.Text.Bytes

namespace FormulaGraph.Text

/-- The offsets just behind each newline, for a text that begins at `offset`. -/
def startsBehindNewlines (offset : Nat) : List Char → List Nat
  | [] => []
  | c :: cs =>
    let next := offset + c.utf8Size
    if c = '\n' then next :: startsBehindNewlines next cs else startsBehindNewlines next cs

/-- Where each line begins. -/
def lineStarts (cs : List Char) : List Nat := 0 :: startsBehindNewlines 0 cs

/-- The line that holds byte offset `i`, and the offset within it. An offset past the end counts as
    lying on the last line. -/
def locate (cs : List Char) (i : Nat) : Nat × Nat :=
  let upTo := (lineStarts cs).takeWhile (· ≤ i)
  (upTo.length - 1, i - upTo.getLastD 0)

/-- Line `k` with its newline; `none` if there are not so many lines. -/
def line? (cs : List Char) (k : Nat) : Option (List Char) :=
  let starts := lineStarts cs
  starts[k]?.bind fun start => slice? start (starts[k + 1]?.getD (byteSize cs)) cs

end FormulaGraph.Text
