/-
  File:      FormulaGraph/Table/Walk.lean
  Subject:   Visiting the nodes below an id, each once.

  * `Table.preorder` -- the ids reached from a root: each before its arguments, arguments from left
    to right, at the first place it is met;
  * `Table.reachableCount`, `Table.freeSymbols` -- what is counted and collected on that walk.
-/
import FormulaGraph.Table.Basic

namespace FormulaGraph

/-- A finite set of ids, one bit for each. -/
structure IdSet where
  bits : Nat := 0
  deriving DecidableEq, Repr

namespace IdSet

def empty : IdSet := {}

def contains (s : IdSet) (id : Nat) : Bool := s.bits.testBit id

def insert (s : IdSet) (id : Nat) : IdSet := ⟨s.bits ||| 1 <<< id⟩

@[simp] theorem contains_empty (id : Nat) : empty.contains id = false := by
  simp [empty, contains]

@[simp] theorem contains_insert (s : IdSet) (a b : Nat) :
    (s.insert a).contains b = (s.contains b || decide (a = b)) := by
  simp [insert, contains, Nat.testBit_or, Nat.one_shiftLeft, Nat.testBit_two_pow]

end IdSet

namespace Table

/-- The ids met so far, the latest first, also as a set. -/
structure Visited where
  seen : IdSet := {}
  order : List Nat := []
  deriving DecidableEq, Repr

/-- Visits `id` and what is below it, unless it has been met. Arguments stand below their operation,
    so `id + 1` levels reach every node. -/
def visit (t : Table) : (levels : Nat) → Visited → Nat → Visited
  | 0, v, _ => v
  | levels + 1, v, id =>
    if v.seen.contains id then v
    else
      (t.args id).foldl (fun v arg => t.visit levels v arg) ⟨v.seen.insert id, id :: v.order⟩

/-- The ids reached from `root` in the order in which they are first met. -/
def preorder (t : Table) (root : Nat) : List Nat := (t.visit (root + 1) {} root).order.reverse

/-- The number of distinct nodes reached from `root`, itself included. -/
def reachableCount (t : Table) (root : Nat) : Nat := (t.preorder root).length

/-- The name of a node that is a symbol. -/
def symbolName? (t : Table) (id : Nat) : Option String :=
  match t.node? id with
  | some (.symbol name) => some name
  | _ => none

/-- The names of the symbols reached from `root`, in order of first appearance. -/
def freeSymbols (t : Table) (root : Nat) : List String :=
  ((t.preorder root).filterMap t.symbolName?).eraseDups

/-- `reachableCount`, refused if the root is not in the table. -/
def reachableCount? (t : Table) (root : Nat) : Option Nat := t.ask? t.reachableCount root

/-- `freeSymbols`, refused if the root is not in the table. -/
def freeSymbols? (t : Table) (root : Nat) : Option (List String) := t.ask? t.freeSymbols root

end Table

end FormulaGraph
