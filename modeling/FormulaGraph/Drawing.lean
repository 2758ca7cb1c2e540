/-
  File:      FormulaGraph/Drawing.lean
  Subject:   A compound as a Graphviz drawing.

  Ports of the compound are boxes, green for inputs and orange for the output. Nodes are white,
  constants gray with their value, compounds blue. A wire is labelled with the port it leads to.
-/
import FormulaGraph.Decimal.Layout
import FormulaGraph.Store.Basic

namespace FormulaGraph.Drawing

/-- A quoted id; quotes in it are escaped. -/
def quote (id : String) : String :=
  let escaped := String.ofList (id.toList.flatMap fun c => if c = '"' then ['\\', '"'] else [c])
  "\"" ++ escaped ++ "\""

/-- A port path cut at its last point: the node and the port. Without a point there is no port. -/
def splitPort (path : String) : String × String :=
  let reversed := path.toList.reverse
  let port := reversed.takeWhile (· != '.')
  match reversed.drop port.length with
  | [] => (path, "")
  | _ :: node => (String.ofList node.reverse, String.ofList port.reverse)

/-- The statement of a compound's port. -/
def portLine (compound port color : String) : String :=
  let id := quote (portPath compound port)
  s!"\t{id}\t[shape=box style=filled fillcolor={color} label=\"{port}\"]\n"

/-- The statement of a node inside the compound. -/
def nodeLine (path : String) (r : Record) : String :=
  let id := quote path
  let (color, label) := match r.nodeType, r.value with
    | some _, some value => ("lightgray", Layout.plain.render value)
    | some _, none => ("white", r.name)
    | none, _ => ("lightblue", r.name)
  s!"\t{id}\t[style=filled fillcolor={color} label=\"{label}\"]\n"

def wireColor : WireKind → String
  | .nodeToNode => "black"
  | .symbolToInput => "darkgreen"
  | .nodeToOutput => "orange"
  | .inputToOutput => "blue"

/-- The drawn ids that a wire joins: a compound's port stands for itself, a node's port for its
    node. -/
def wireEnds (w : Wire) : String × String :=
  let source := match w.kind with
    | .symbolToInput | .inputToOutput => w.source
    | _ => (splitPort w.source).1
  let target := match w.kind with
    | .nodeToOutput | .inputToOutput => w.target
    | _ => (splitPort w.target).1
  (source, target)

/-- The statement of a wire. -/
def wireLine (w : Wire) : String :=
  let (source, target) := wireEnds w
  let color := wireColor w.kind
  let port := (splitPort w.target).2
  let ends := quote source ++ " -> " ++ quote target
  s!"\t{ends}\t[label=\"{port}\" color={color} fontcolor={color}]\n"

end FormulaGraph.Drawing

namespace FormulaGraph

/-- The drawing of a compound. -/
def Store.drawing (s : Store) (compound : String) : String :=
  let ports := match s.record? compound with
    | none => []
    | some r =>
      r.inputs.map (Drawing.portLine compound · "lightgreen") ++
        r.outputs.map (Drawing.portLine compound · "orange")
  let nodes := (s.order.filter (isWithin compound)).filterMap fun path =>
    (s.record? path).map (Drawing.nodeLine path)
  let wires := (s.wiresWithin compound).map Drawing.wireLine
  "strict digraph \x7b\n\trankdir=LR\n\tnodesep=0.5\n" ++ String.join (ports ++ nodes ++ wires) ++
    "\x7d\n"

end FormulaGraph
