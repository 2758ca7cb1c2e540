/-
  File:      FormulaGraph/Store/Calls.lean
  Subject:   The calls that change a store.

  Every call is counted, and fails if it was told to. What it does then is a function of the store
  that gives a new store or refuses; a call that refuses changes nothing but its count
  (`Store.perform_error`).
-/
import FormulaGraph.Store.Basic

namespace FormulaGraph

/-- A call on a store. The store it leaves is kept also if it fails. -/
abbrev StoreM (α : Type) := EStateM StoreError Store α

namespace Store

/-! ## 1. Counting and failing -/

/-- The store after one more call of a kind. -/
def counted (s : Store) (call : StoreCall) : Store :=
  { s with calls := fun c => if c = call then s.calls c + 1 else s.calls c }

/-- Makes the `nth` call of a kind from now on fail; the next one is the first. -/
def failOn (s : Store) (call : StoreCall) (nth : Nat) : Store :=
  { s with faults := s.faults ++ [(call, s.calls call + nth)] }

/-- Counts a call, lets it fail if it was told to, and else does the work. -/
def perform {α : Type} (call : StoreCall) (work : Store → Except StoreError (α × Store)) :
    StoreM α := fun s =>
  let s := s.counted call
  if s.faults.contains (call, s.calls call) then .error (.injected call) s
  else
    match work s with
    | .ok (result, s) => .ok result s
    | .error e => .error e s

/-- A call that fails changes nothing but its count. -/
theorem perform_error {α : Type} {call : StoreCall}
    {work : Store → Except StoreError (α × Store)} {s s' : Store} {e : StoreError}
    (h : perform call work s = .error e s') : s' = s.counted call := by
  unfold perform at h
  simp only at h
  split at h
  · cases h; rfl
  · split at h
    · cases h
    · cases h; rfl

/-! ## 2. Making nodes and ports -/

def inputName : String := "input"

def outputName : String := "output"

/-- Changes the record at a path. -/
def updateRecord (s : Store) (path : String) (f : Record → Record) : Store :=
  { s with records := Assoc.modify path f s.records }

/-- Puts a record into a container under its name or a numbered one; gives its path. -/
def insert (s : Store) (container : String) (r : Record) : String × Store :=
  let siblings := (s.siblings.lookup container).getD {}
  let last := (siblings.numbers.lookup r.name).getD 0
  let (name, number) := uniqueName r.name last siblings.names
  let path := childPath container name
  (path,
    { s with
      records := Assoc.put path { r with name := name } s.records
      order := s.order ++ [path]
      siblings := Assoc.put container
        ⟨name :: siblings.names, Assoc.put r.name number siblings.numbers⟩ s.siblings })

/-- Makes an empty compound in a container. -/
def createCompound (parent name : String) : StoreM String :=
  perform .createCompound fun s =>
    if s.hasContainer parent then
      .ok (s.insert parent { name := name, container := parent, nodeType := none })
    else .error (.notFound parent)

/-- Makes an input port of a compound. With `skipExisting` a port of that name is taken as it is. -/
def createInputPort (compound name : String) (skipExisting : Bool) : StoreM String :=
  perform .createInputPort fun s => do
    let r ← s.findCompound compound
    if skipExisting && r.inputs.contains name then
      return (portPath compound name, s)
    else
      let port := (uniqueName name 0 r.inputs).1
      return (portPath compound port,
        s.updateRecord compound fun r => { r with inputs := r.inputs ++ [port] })

/-- Makes an output port of a compound. -/
def createOutputPort (compound name : String) : StoreM String :=
  perform .createOutputPort fun s => do
    let r ← s.findCompound compound
    let port := (uniqueName name 0 r.outputs).1
    return (portPath compound port,
      s.updateRecord compound fun r => { r with outputs := r.outputs ++ [port] })

/-- Makes a node in a compound. It has one output, and one input unless it is a constant. -/
def createNode (compound : String) (type : NodeType) : StoreM String :=
  perform .createNode fun s => do
    let _ ← s.findCompound compound
    return s.insert compound {
      name := type.shortName
      container := compound
      nodeType := some type
      inputs := if type.isConstant then [] else [inputName]
      outputs := [outputName] }

/-- Gives a constant its value. -/
def setLiteralValue (node : String) (value : Float) : StoreM Unit :=
  perform .setLiteralValue fun s => do
    let r ← s.find node
    if r.nodeType.any NodeType.isConstant then
      return ((), s.updateRecord node fun r => { r with value := some value })
    else .error (.portNotFound node "value")

/-! ## 3. Wires -/

/-- Whether two ends fit a kind of wire. -/
def fits : WireKind → PortRef → PortRef → Bool
  | .nodeToNode, .node _, .node _ => true
  | .symbolToInput, .compoundInput _, .node _ => true
  | .nodeToOutput, .node _, .compoundOutput _ => true
  | .inputToOutput, .compoundInput _, .compoundOutput _ => true
  | _, _, _ => false

/-- Checks that a port is one of a compound's ports, which `ports` selects. -/
def checkPort (s : Store) (compound port : String) (ports : Record → List String) :
    Except StoreError Unit := do
  let r ← s.findCompound compound
  if (ports r).any (portPath compound · == port) then return ()
  else .error (.portNotFound compound port)

/-- The port that a wire leaves from. -/
def sourcePort (s : Store) (compound : String) (source : PortRef) : Except StoreError String :=
  let refused : Except StoreError String :=
    .error (.invalidConnection source.path compound "not a source inside the compound")
  match source with
  | .node path =>
    if isWithin compound path then do
      let r ← s.find path
      match r.outputs with
      | port :: _ => return portPath path port
      | [] => .error (.portNotFound path outputName)
    else refused
  | .compoundInput port => do
    s.checkPort compound port Record.inputs
    return port
  | .compoundOutput _ => refused

/-- The name of the input port that is added to a node with `count` inputs. -/
def addedInput (count : Nat) : String :=
  if count = 0 then inputName else numberedName inputName count

/-- The port that a wire arrives at. A node without a free input gets one more. -/
def targetPort (s : Store) (compound : String) (target : PortRef) :
    Except StoreError (String × Store) :=
  let refused : Except StoreError (String × Store) :=
    .error (.invalidConnection compound target.path "not a target inside the compound")
  match target with
  | .node path =>
    if isWithin compound path then do
      let r ← s.find path
      match (r.inputs.map (portPath path)).find? (!s.isDriven ·) with
      | some port => return (port, s)
      | none =>
        let name := addedInput r.inputs.length
        return (portPath path name,
          s.updateRecord path fun r => { r with inputs := r.inputs ++ [name] })
    else refused
  | .compoundOutput port => do
    s.checkPort compound port Record.outputs
    if s.isDriven port then
      .error (.invalidConnection compound port "the output port is already connected")
    else return (port, s)
  | .compoundInput _ => refused

/-- Adds a member to a set that is held as a list. -/
def mark (port : String) (ports : List String) : List String :=
  if ports.contains port then ports else ports ++ [port]

/-- Makes a wire inside a compound. -/
def connect (compound : String) (source target : PortRef) (kind : WireKind) : StoreM Unit :=
  perform .connect fun s => do
    if fits kind source target then
      let source ← s.sourcePort compound source
      let (target, s) ← s.targetPort compound target
      return ((),
        { s with driven := mark target s.driven, wires := s.wires ++ [⟨source, target, kind⟩] })
    else
      .error (.invalidConnection source.path target.path
        s!"endpoints do not fit a {kind.name} connection")

/-! ## 4. Deleting -/

/-- A node and what is inside it. -/
def covers (node path : String) : Bool := path == node || isWithin node path

/-- Whether a wire has an end at a node or inside it. -/
def touches (node : String) (w : Wire) : Bool :=
  let belongs (port : String) := isWithin node port || isPortOf node port
  belongs w.source || belongs w.target

/-- Gives the name of a record back to its container. -/
def releaseName (siblings : List (String × Siblings)) (r : Record) : List (String × Siblings) :=
  Assoc.modify r.container (fun c => { c with names := c.names.filter (· != r.name) }) siblings

/-- The store without a node, what is inside it, and the wires at either. -/
def without (s : Store) (node : String) : Store :=
  let removed := s.records.filter fun e => covers node e.1
  let cut := s.wires.filter (touches node)
  { s with
    records := s.records.filter fun e => !covers node e.1
    order := s.order.filter (!covers node ·)
    siblings := (removed.foldl (fun siblings e => releaseName siblings e.2) s.siblings).filter
      fun e => !covers node e.1
    wires := s.wires.filter (!touches node ·)
    driven := s.driven.filter fun port => !cut.any (·.target == port) }

/-- Deletes a node with everything inside it and every wire at it. -/
def deleteNode (node : String) : StoreM Unit :=
  perform .deleteNode fun s => do
    let _ ← s.find node
    return ((), s.without node)

/-! ## 5. Asking and looking -/

/-- Turns to a container, which need not be there. -/
def look (s : Store) (container : String) : Store := { s with focus := container }

/-- The nodes of a container. This call is not counted. -/
def listNodes (s : Store) (container : String) : Except StoreError (List String) :=
  if s.hasContainer container then .ok (s.children container) else .error (.notFound container)

end Store

end FormulaGraph
