/-
  File:      FormulaGraph/Emission.lean
  Subject:   Building a planned compound in a store.

  The steps of a plan are taken one by one. Every compound and node that is made is written into a
  journal; if a step fails, what the journal names is deleted again, the latest first, so that the
  store is left as it was.

  * `Plan.emit` -- the emission, with its rollback;
  * `Emission.rollback` -- what is reported: the first cause, and the first deletion that failed.
-/
import FormulaGraph.Failure
import FormulaGraph.Store.Calls

namespace FormulaGraph

/-- What an emission has made so far. -/
structure Emission where
  /-- The compounds and nodes made, the latest first. -/
  journal : List String := []
  compound : Option String := none
  outputPorts : List (String × String) := []
  inputPorts : List (String × String) := []
  /-- The nodes by expression. -/
  nodes : List (Nat × String) := []
  deriving DecidableEq, Repr

/-- A compound that has been built. -/
structure Compound where
  path : String
  outputPort : String
  /-- The input ports by symbol, in order of creation. -/
  inputPorts : List (String × String)
  /-- The nodes by expression. -/
  nodes : List (Nat × String)
  deriving DecidableEq, Repr

/-- The input port of a symbol. -/
def Compound.inputPort? (c : Compound) (symbol : String) : Option String :=
  c.inputPorts.lookup symbol

/-- A step of building on a store, which may fail. -/
abbrev EmissionM (α : Type) := EStateM Failure Store α

namespace Emission

/-- A call of the store about `target`; its refusal becomes a failure. -/
def calling {α : Type} (call : StoreCall) (target : String) (action : StoreM α) : EmissionM α :=
  fun s =>
    match action s with
    | .ok a s => .ok a s
    | .error e s => .error (.store call target e) s

/-- The failure of a plan that names something it has not made. -/
def missing (call : StoreCall) (target : String) : Failure :=
  .store call target (.notFound target)

/-- Something that the plan must have made before. -/
def require {α : Type} (call : StoreCall) (target : String) (found : Option α) : EmissionM α :=
  match found with
  | some a => pure a
  | none => throw (missing call target)

/-- The compound that is being built. -/
def theCompound (e : Emission) (call : StoreCall) : EmissionM String :=
  require call "compound" e.compound

/-- The node of an expression. -/
def nodeOf (e : Emission) (call : StoreCall) (expr : Nat) : EmissionM String :=
  require call s!"#{expr}" (e.nodes.lookup expr)

/-- An end of a planned wire in the store. -/
def endOf (e : Emission) : Endpoint → EmissionM PortRef
  | .node expr => return .node (← e.nodeOf .connect expr)
  | .compoundInput name =>
    return .compoundInput (← require .connect name (e.inputPorts.lookup name))
  | .compoundOutput name =>
    return .compoundOutput (← require .connect name (e.outputPorts.lookup name))

/-- Takes one step of a plan. -/
def take (e : Emission) : BuildStep → EmissionM Emission
  | .createCompound parent name => do
    let path ← calling .createCompound name (Store.createCompound parent name)
    return { e with journal := path :: e.journal, compound := some path }
  | .createOutputPort name => do
    let compound ← e.theCompound .createOutputPort
    let port ← calling .createOutputPort name (Store.createOutputPort compound name)
    return { e with outputPorts := e.outputPorts ++ [(name, port)] }
  | .createInputPort name skipExisting => do
    let compound ← e.theCompound .createInputPort
    let port ← calling .createInputPort name (Store.createInputPort compound name skipExisting)
    if (e.inputPorts.lookup name).isSome then return e
    else return { e with inputPorts := e.inputPorts ++ [(name, port)] }
  | .createNode expr type => do
    let compound ← e.theCompound .createNode
    let path ← calling .createNode type.name (Store.createNode compound type)
    return { e with journal := path :: e.journal, nodes := Assoc.put expr path e.nodes }
  | .setLiteralValue expr value => do
    let node ← e.nodeOf .setLiteralValue expr
    calling .setLiteralValue node (Store.setLiteralValue node value)
    return e
  | .connect kind source target => do
    let compound ← e.theCompound .connect
    let source ← e.endOf source
    let target ← e.endOf target
    calling .connect (source.path ++ " -> " ++ target.path)
      (Store.connect compound source target kind)
    return e

/-- Takes steps until one fails; gives what has been made, and the failure. -/
def run (e : Emission) : List BuildStep → Store → Emission × Option Failure × Store
  | [], s => (e, none, s)
  | step :: steps, s =>
    match e.take step s with
    | .ok e s => run e steps s
    | .error failure s => (e, some failure, s)

/-- Deletes what a journal names, the latest first; gives the first deletion that failed. -/
def undo : (journal : List String) → Store → Option StoreError × Store
  | [], s => (none, s)
  | path :: rest, s =>
    match Store.deleteNode path s with
    | .ok _ s => undo rest s
    | .error e s =>
      let (_, s) := undo rest s
      (some e, s)

/-- Undoes an emission and reports its failure. -/
def rollback {α : Type} (e : Emission) (cause : Failure) : EmissionM α := fun s =>
  match undo e.journal s with
  | (none, s) => .error cause s
  | (some source, s) => .error (.rollback cause source) s

/-- The compound that has been built, if the plan made one with the output port it names. -/
def finish (e : Emission) (outputPort : String) : Except Failure Compound :=
  match e.compound with
  | none => .error (missing .createCompound "compound")
  | some path =>
    match e.outputPorts.lookup outputPort with
    | none => .error (missing .createOutputPort outputPort)
    | some port => .ok ⟨path, port, e.inputPorts, e.nodes⟩

end Emission

/-- Builds the compound of a plan. If that fails, nothing of it is left behind. -/
def Plan.emit (p : Plan) : EmissionM Compound := fun s =>
  match Emission.run {} p.steps s with
  | (e, some failure, s) => e.rollback failure s
  | (e, none, s) =>
    match e.finish p.outputPort with
    | .ok compound => .ok compound s
    | .error failure => e.rollback failure s

end FormulaGraph
