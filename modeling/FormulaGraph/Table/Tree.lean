/-
  File:      FormulaGraph/Table/Tree.lean
  Subject:   The tree that an id stands for, and its text.

  Sharing is forgotten: a node that is used twice stands twice in the tree. Arguments stand below
  their operation, so `id + 1` levels reach every leaf.
-/
import FormulaGraph.Table.Basic

namespace FormulaGraph

/-- An expression without sharing. -/
inductive Tree where
  | symbol (name : String)
  | literal (value : Literal)
  | operation (op : Operator) (args : List Tree)
  deriving Repr, Inhabited

namespace Tree

mutual
/-- The tree as a constructor call: `Add(Symbol('x'), Integer(1))`. -/
def text : Tree → String
  | symbol name => s!"Symbol('{name}')"
  | literal value => value.text
  | operation op args =>
    let inside := textAll args
    s!"{op.name}({inside})"

/-- The texts with commas between them. -/
def textAll : List Tree → String
  | [] => ""
  | [a] => a.text
  | a :: as => a.text ++ ", " ++ textAll as
end

end Tree

namespace Table

/-- The tree of an id, cut off below `levels` levels. -/
def unfold (t : Table) : (levels id : Nat) → Tree
  | 0, _ => default
  | levels + 1, id =>
    match t.node? id with
    | none => default
    | some (.symbol name) => .symbol name
    | some (.literal value) => .literal value
    | some (.operation op args) => .operation op (args.map fun arg => t.unfold levels arg)

/-- The tree that an id stands for. -/
def tree (t : Table) (id : Nat) : Tree := t.unfold (id + 1) id

/-- `tree`, refused if the id is not in the table. -/
def tree? (t : Table) (id : Nat) : Option Tree := t.ask? t.tree id

end Table

end FormulaGraph
