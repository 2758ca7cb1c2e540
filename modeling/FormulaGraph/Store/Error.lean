/-
  File:      FormulaGraph/Store/Error.lean
  Subject:   The calls of a graph store, and why one of them fails.
-/

namespace FormulaGraph

/-- The calls that change a store, and the listing of a container. -/
inductive StoreCall where
  | createCompound
  | createInputPort
  | createOutputPort
  | createNode
  | setLiteralValue
  | connect
  | deleteNode
  | listNodes
  deriving DecidableEq, Repr

namespace StoreCall

def name : StoreCall → String
  | createCompound => "create compound"
  | createInputPort => "create input port"
  | createOutputPort => "create output port"
  | createNode => "create node"
  | setLiteralValue => "set literal value"
  | connect => "connect"
  | deleteNode => "delete node"
  | listNodes => "list nodes"

def all : List StoreCall :=
  [createCompound, createInputPort, createOutputPort, createNode, setLiteralValue, connect,
   deleteNode, listNodes]

end StoreCall

/-- The causes for which a store refuses a call. -/
inductive StoreError where
  | notFound (path : String)
  | portNotFound (node port : String)
  | invalidConnection (source target reason : String)
  /-- The call was told to fail. -/
  | injected (call : StoreCall)
  deriving DecidableEq, Repr

namespace StoreError

def message : StoreError → String
  | notFound path => s!"nothing exists at `{path}`"
  | portNotFound node port => s!"`{node}` has no port `{port}`"
  | invalidConnection source target reason => s!"cannot connect `{source}` to `{target}`: {reason}"
  | injected call => s!"injected failure of `{call.name}`"

end StoreError

end FormulaGraph
