/-
  File:      FormulaGraph/Plan/Basic.lean
  Subject:   The plan of a compound: what to build, step by step.

  A plan names expressions by their ids. It holds the steps in the order they are to be taken, and
  beside them the nodes and the links that the steps make.
-/
import FormulaGraph.Catalogue

namespace FormulaGraph

/-- Between what a wire runs. -/
inductive WireKind where
  | nodeToNode
  | symbolToInput
  | nodeToOutput
  | inputToOutput
  deriving DecidableEq, Repr

/-- The name of a kind in messages and listings. -/
def WireKind.name : WireKind → String
  | nodeToNode => "node-to-node"
  | symbolToInput => "symbol-to-input"
  | nodeToOutput => "node-to-output"
  | inputToOutput => "input-to-output"

/-- One end of a planned wire: the node of an expression, or a port of the compound. -/
inductive Endpoint where
  | node (expr : Nat)
  | compoundInput (name : String)
  | compoundOutput (name : String)
  deriving DecidableEq, Repr

/-- One step of building a compound. -/
inductive BuildStep where
  | createCompound (parent name : String)
  | createOutputPort (name : String)
  | createInputPort (name : String) (skipExisting : Bool)
  | createNode (expr : Nat) (nodeType : NodeType)
  | setLiteralValue (expr : Nat) (value : Float)
  | connect (kind : WireKind) (source target : Endpoint)
  deriving DecidableEq, Repr

/-- What a planned node is for. -/
inductive Role where
  /-- A free variable, which becomes an input port of the compound. -/
  | input
  | operator
  | literal
  deriving DecidableEq, Repr

/-- What becomes of one expression. -/
structure PlannedNode where
  expr : Nat
  role : Role
  nodeType : Option NodeType := none
  /-- The value of a literal. -/
  value : Option Float := none
  /-- The input port of a free variable. -/
  port : Option String := none
  deriving DecidableEq, Repr

/-- A flow of data between planned nodes. -/
inductive Link where
  /-- The result of the expression feeds the output of the compound. -/
  | output (source : Nat)
  /-- An input of the compound feeds a node. -/
  | input (symbol : String) (target : Nat)
  | node (source target : Nat)
  deriving DecidableEq, Repr

/-- All that is needed to build one compound. -/
structure Plan where
  compoundName : String
  parent : String
  outputPort : String
  root : Nat
  steps : List BuildStep
  nodes : List PlannedNode
  links : List Link
  deriving DecidableEq, Repr

namespace Plan

/-- The first planned node of an expression. -/
def node? (p : Plan) (expr : Nat) : Option PlannedNode := p.nodes.find? (·.expr == expr)

/-- The names of the input ports, in order of first occurrence. -/
def inputPorts (p : Plan) : List String := (p.nodes.filterMap (·.port)).eraseDups

end Plan

end FormulaGraph
