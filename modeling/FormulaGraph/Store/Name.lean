/-
  File:      FormulaGraph/Store/Name.lean
  Subject:   Names that are not taken.

  A wanted name is kept if it is free; else a number is added. Numbers are counted on from the last
  one that was handed out, so a number is not used again soon after its node is gone.
-/

namespace FormulaGraph

/-- A name with a number. -/
def numberedName (base : String) (k : Nat) : String := s!"{base}_{k}"

/-- The least number from `k` on whose name is free, among `tries` numbers. -/
def freeNumber (base : String) (taken : List String) : (tries k : Nat) → Nat
  | 0, k => k
  | tries + 1, k =>
    if numberedName base k ∈ taken then freeNumber base taken tries (k + 1) else k

/-- The wanted name or a numbered one, and the last number handed out. Of more numbers than there
    are taken names one is free. -/
def uniqueName (base : String) (last : Nat) (taken : List String) : String × Nat :=
  if base ∈ taken then
    let k := freeNumber base taken taken.length (last + 1)
    (numberedName base k, k)
  else (base, last)

end FormulaGraph
