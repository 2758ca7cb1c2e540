/-
  File:      FormulaGraph/Store/Basic.lean
  Subject:   A graph of nodes, compounds and wires, held in memory.

  Nodes are named by their paths: `/expr/add` is the node `add` in the compound `/expr`. A port is
  named by its node and its own name: `/expr/add.input`. The ports of a node inside a compound are
  found by the store; the ports of the compound itself are made one by one.

  * `Store` -- all of the state; `Store.record?`, `Store.wiresWithin`, `Store.children` look into
    it;
  * `childPath`, `portPath`, `isWithin`, `isPortOf` -- how paths are made and compared.
-/
import FormulaGraph.Assoc
import FormulaGraph.Catalogue
import FormulaGraph.Plan.Basic
import FormulaGraph.Store.Error
import FormulaGraph.Store.Name

namespace FormulaGraph

/-! ## 1. Paths -/

/-- The container that is always there. -/
def rootPath : String := "/"

/-- The path of a node in a container. -/
def childPath (container name : String) : String :=
  if container = rootPath then "/" ++ name else container ++ "/" ++ name

/-- The path of a node's port. -/
def portPath (node port : String) : String := node ++ "." ++ port

/-- Whether a path lies below a node. -/
def isWithin (node path : String) : Bool := (node ++ "/").toList.isPrefixOf path.toList

/-- Whether a path is that of a port of a node. -/
def isPortOf (node path : String) : Bool := (node ++ ".").toList.isPrefixOf path.toList

/-! ## 2. What is stored -/

/-- A node or a compound. -/
structure Record where
  name : String
  container : String
  /-- The type of a node; a compound has none. -/
  nodeType : Option NodeType
  value : Option Float := none
  /-- The names of the input ports, in order of creation. -/
  inputs : List String := []
  outputs : List String := []
  deriving DecidableEq, Repr

def Record.isCompound (r : Record) : Bool := r.nodeType.isNone

/-- A wire from one port to another. -/
structure Wire where
  source : String
  target : String
  kind : WireKind
  deriving DecidableEq, Repr

/-- The names in use in a container, and the last number handed out for each wanted name. -/
structure Siblings where
  names : List String := []
  numbers : List (String × Nat) := []
  deriving DecidableEq, Repr

/-- One end of a wire that is to be made. -/
inductive PortRef where
  /-- A node: its output as a source, its next free input as a target. -/
  | node (path : String)
  | compoundInput (path : String)
  | compoundOutput (path : String)
  deriving DecidableEq, Repr

def PortRef.path : PortRef → String
  | node path => path
  | compoundInput path => path
  | compoundOutput path => path

/-- The state of a graph. -/
structure Store where
  /-- The nodes by their paths. -/
  records : List (String × Record) := []
  /-- The paths in order of creation. A path stands twice if it was created twice. -/
  order : List String := []
  /-- The names in use by container. -/
  siblings : List (String × Siblings) := []
  /-- The wires in order of creation. -/
  wires : List Wire := []
  /-- The ports that a wire leads to. -/
  driven : List String := []
  /-- The container that is looked at. -/
  focus : String := rootPath
  /-- How often each call was made. -/
  calls : StoreCall → Nat := fun _ => 0
  /-- The calls that are to fail, by their number. -/
  faults : List (StoreCall × Nat) := []

namespace Store

/-- The store without nodes. -/
def empty : Store := {}

/-! ## 3. Looking into a store -/

def record? (s : Store) (path : String) : Option Record := s.records.lookup path

def nodeCount (s : Store) : Nat := s.records.length

/-- Whether nodes can be put at a path. -/
def hasContainer (s : Store) (container : String) : Bool :=
  container == rootPath || (s.record? container).any Record.isCompound

def isDriven (s : Store) (port : String) : Bool := s.driven.contains port

/-- The paths of the nodes in a container, in order of creation. -/
def children (s : Store) (container : String) : List String :=
  ((s.order.filterMap s.record?).filter (·.container == container)).map fun r =>
    childPath container r.name

/-- The wires whose ends both belong to a compound or to nodes inside it. -/
def wiresWithin (s : Store) (compound : String) : List Wire :=
  let belongs (port : String) := isWithin compound port || isPortOf compound port
  s.wires.filter fun w => belongs w.source && belongs w.target

/-- A node that has to be there. -/
def find (s : Store) (path : String) : Except StoreError Record :=
  match s.record? path with
  | some r => .ok r
  | none => .error (.notFound path)

/-- A compound that has to be there. -/
def findCompound (s : Store) (path : String) : Except StoreError Record :=
  match s.record? path with
  | some r => if r.isCompound then .ok r else .error (.notFound path)
  | none => .error (.notFound path)

end Store

end FormulaGraph
