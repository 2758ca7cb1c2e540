/-
  File:      FormulaGraph/Table/Basic.lean
  Subject:   The table of expression nodes.

  An expression is a node and the nodes below it; a node is named by its index, its id. The
  arguments of an operation are ids below its own, so a table holds no cycle. `Table.intern` gives
  equal nodes one id, which is how sub-expressions come to be shared; `Table.push` always makes a
  new one.

  * `Table.Ordered` -- every argument stands below the operation that uses it;
  * `Table.Indexed` -- what is interned under an id is the node stored there;
  * `Table.push?`, `Table.intern?` -- adding a node, refused if an argument is not in the table.
-/
import FormulaGraph.Literal

namespace FormulaGraph

/-- One node: a free variable, a numeric leaf, or an operation on nodes. -/
inductive Node where
  | symbol (name : String)
  | literal (value : Literal)
  | operation (op : Operator) (args : List Nat)
  deriving DecidableEq, Repr

namespace Node

/-- The ids of the nodes directly below. -/
def args : Node → List Nat
  | operation _ args => args
  | _ => []

end Node

/-- All nodes of one or more expressions. Ids are not bounded; where they have 32 bits, this is the
    table as long as it has at most `2 ^ 32` nodes. -/
structure Table where
  nodes : Array Node := #[]
  /-- The nodes that have been interned, the latest first. -/
  interned : List (Node × Nat) := []
  deriving DecidableEq, Repr

namespace Table

/-- The table without nodes. -/
def empty : Table := {}

def size (t : Table) : Nat := t.nodes.size

def node? (t : Table) (id : Nat) : Option Node := t.nodes[id]?

/-- The ids directly below `id`. -/
def args (t : Table) (id : Nat) : List Nat := ((t.node? id).map Node.args).getD []

/-- Every argument stands below the operation that uses it. -/
def Ordered (t : Table) : Prop :=
  ∀ id node, t.node? id = some node → ∀ arg ∈ node.args, arg < id

/-- What is interned under an id is the node stored there. -/
def Indexed (t : Table) : Prop :=
  ∀ node id, t.interned.lookup node = some id → t.node? id = some node

/-! ## 1. Adding nodes -/

/-- Whether all arguments of a node are in the table. -/
def admits (t : Table) (node : Node) : Bool := node.args.all (· < t.size)

/-- Adds a node under a new id, also if an equal one exists. -/
def push (t : Table) (node : Node) : Nat × Table :=
  (t.size, { t with nodes := t.nodes.push node })

/-- The id of an equal node that has been interned, or else of a new one. -/
def intern (t : Table) (node : Node) : Nat × Table :=
  match t.interned.lookup node with
  | some id => (id, t)
  | none =>
    let (id, t) := t.push node
    (id, { t with interned := (node, id) :: t.interned })

/-- `push`, refused if an argument is not in the table. -/
def push? (t : Table) (node : Node) : Option (Nat × Table) :=
  if t.admits node then some (t.push node) else none

/-- `intern`, refused if the node is new and an argument is not in the table. -/
def intern? (t : Table) (node : Node) : Option (Nat × Table) :=
  if (t.interned.lookup node).isSome || t.admits node then some (t.intern node) else none

/-- What a function says about an id, refused if the id is not in the table. -/
def ask? {α : Type} (t : Table) (f : Nat → α) (id : Nat) : Option α :=
  if id < t.size then some (f id) else none

def symbol (t : Table) (name : String) : Nat × Table := t.intern (.symbol name)

def literal (t : Table) (value : Literal) : Nat × Table := t.intern (.literal value)

def number (t : Table) (value : Number) : Nat × Table := t.literal (.ofNumber value)

def operation (t : Table) (op : Operator) (args : List Nat) : Nat × Table :=
  t.intern (.operation op args)

/-! ## 2. Small laws -/

@[simp] theorem size_push (t : Table) (node : Node) : (t.push node).2.size = t.size + 1 := by
  simp [push, size]

@[simp] theorem node?_push_self (t : Table) (node : Node) :
    (t.push node).2.node? t.size = some node := by
  simp [push, node?, size]

/-- Pushing changes no node that was there. -/
theorem node?_push_of_lt {t : Table} {node : Node} {id : Nat} (h : id < t.size) :
    (t.push node).2.node? id = t.node? id := by
  simp [push, node?, size] at *
  rw [Array.getElem?_push_lt h, Array.getElem?_eq_getElem h]

end Table

end FormulaGraph
