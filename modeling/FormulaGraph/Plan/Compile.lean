/-
  File:      FormulaGraph/Plan/Compile.lean
  Subject:   From a node of the table to the plan of its compound.

  Every distinct expression below the root is planned once. The walk goes down from the root; at
  each node the node itself is planned and then its arguments, so that arguments may come earlier
  than the walk reaches them.

  * `Table.creationOrder` -- the expressions in the order they are planned;
  * `Table.uses` -- the pairs of an argument and the operation that uses it, in walking order;
  * `Table.compile` -- the plan, or why there is none.
-/
import FormulaGraph.Failure
import FormulaGraph.Plan.Basic
import FormulaGraph.Table.Walk

namespace FormulaGraph

/-- What a compound is to be called, where it goes and how large it may be. -/
structure CompoundOptions where
  /-- The wanted name; the store may add a number to keep names unique. -/
  name : String := "expr"
  /-- The container of the compound. -/
  parent : String := "/"
  /-- The greatest number of distinct expressions. -/
  maxNodes : Nat := 2048
  deriving DecidableEq, Repr

/-- The name of a compound's only output port. -/
def outputPortName : String := "output"

namespace PlannedNode

/-- The steps that make a planned node: a port for a variable, a node and its value for the rest. -/
def steps (n : PlannedNode) : List BuildStep :=
  match n.port, n.nodeType with
  | some port, _ => [.createInputPort port true]
  | none, some type =>
    .createNode n.expr type :: (n.value.map (BuildStep.setLiteralValue n.expr ·)).toList
  | none, none => []

end PlannedNode

namespace Link

/-- The wire of a link inside the compound. -/
def step : Link → BuildStep
  | output source => .connect .nodeToOutput (.node source) (.compoundOutput outputPortName)
  | input symbol target => .connect .symbolToInput (.compoundInput symbol) (.node target)
  | node source target => .connect .nodeToNode (.node source) (.node target)

end Link

namespace Table

/-- The expressions below `root` in the order they are planned. -/
def creationOrder (t : Table) (root : Nat) : List Nat :=
  ((t.preorder root).flatMap fun id => id :: t.args id).eraseDups

/-- The pairs of an argument and the operation that uses it. -/
def uses (t : Table) (root : Nat) : List (Nat × Nat) :=
  (t.preorder root).flatMap fun id => (t.args id).map (·, id)

/-- A node whose type the catalogue gives. Only a literal of the constant type has a value. -/
def planTyped (c : Catalogue) (id : Nat) (kind : Operator) (value : Option Float) :
    Except Failure PlannedNode :=
  match c.resolve? kind with
  | none => .error (.unmapped kind)
  | some type =>
    .ok {
      expr := id
      role := if kind.isLiteral then .literal else .operator
      nodeType := some type
      value := if type.isConstant then value else none }

/-- What becomes of the expression `id`, whose node is given. -/
def planNode (c : Catalogue) (id : Nat) : Node → Except Failure PlannedNode
  | .symbol name => .ok { expr := id, role := .input, port := some name }
  | .literal value => planTyped c id value.kind (some value.toFloat)
  | .operation op _ => planTyped c id op none

/-- The expressions below `root` with their nodes, in the order they are planned. -/
def creations (t : Table) (root : Nat) : List (Nat × Node) :=
  (t.creationOrder root).filterMap fun id => (t.node? id).map (id, ·)

/-- The link from an argument to the operation that uses it. -/
def linkOf (t : Table) (source target : Nat) : Link :=
  match t.symbolName? source with
  | some name => .input name target
  | none => .node source target

/-- The links of the expression; the variable alone has none. -/
def linksOf (t : Table) (root : Nat) : List Link :=
  match t.symbolName? root with
  | some _ => []
  | none => .output root :: (t.uses root).map fun use => t.linkOf use.1 use.2

/-- The wires of the expression: one for each link, or from input to output for a variable. -/
def wireSteps (t : Table) (root : Nat) : List BuildStep :=
  match t.symbolName? root with
  | some name => [.connect .inputToOutput (.compoundInput name) (.compoundOutput outputPortName)]
  | none => (t.linksOf root).map Link.step

/-- The plan of the expression `root`. -/
def compile (t : Table) (root : Nat) (c : Catalogue) (o : CompoundOptions) :
    Except Failure Plan := do
  if o.maxNodes < t.reachableCount root then
    throw (.tooLarge (t.reachableCount root) o.maxNodes)
  let nodes ← (t.creations root).mapM fun (id, node) => planNode c id node
  return {
    compoundName := o.name
    parent := o.parent
    outputPort := outputPortName
    root := root
    steps := .createCompound o.parent o.name :: .createOutputPort outputPortName ::
      (nodes.flatMap PlannedNode.steps ++ t.wireSteps root)
    nodes := nodes
    links := t.linksOf root }

/-- `compile`, refused if the root is not in the table. -/
def compile? (t : Table) (root : Nat) (c : Catalogue) (o : CompoundOptions) :
    Option (Except Failure Plan) := t.ask? (t.compile · c o) root

end Table

end FormulaGraph
