/-
  File:      FormulaGraph/Text/Span.lean
  Subject:   A stretch of a text, from one byte offset to another.

  A span is only two offsets: it is not tied to a text, and `Span.text?` says what it denotes in
  one.
-/
import FormulaGraph.Text.Bytes

namespace FormulaGraph

/-- The bytes from `start` up to, not including, `stop`. -/
structure Span where
  start : Nat
  stop : Nat
  deriving DecidableEq, Repr

namespace Span

/-- The number of bytes covered. -/
def length (s : Span) : Nat := s.stop - s.start

/-- From the start of the first span to the end of the second. -/
def join (a b : Span) : Span := ⟨a.start, b.stop⟩

/-- The stretch of `cs` that the span denotes, if it is one. -/
def text? (s : Span) (cs : List Char) : Option (List Char) := Text.slice? s.start s.stop cs

end Span

end FormulaGraph
