/-
  File:      FormulaGraph/Proofs/Store/InPlace.lean
  Subject:   The calls, made on the one store there is.

  A call gives a new store or keeps the old one, so it cannot leave half of its work behind. Here
  the calls are made as a program in place makes them: one store, looked at and written to field by
  field, without a copy to go back to. What was written before a refusal stays written. That the two
  agree in every store says that no call refuses behind its first write, whichever way it takes.

  * `ask`, `modify` -- the two elementary steps: a question that may be refused, and a write;
  * `InPlace.insert`, `InPlace.connect`, …, `InPlace.deleteNode` -- the calls in such steps;
  * `Request.inPlace_eq` -- they answer like the calls and leave the same store;
  * `Untouched`, `failed_request_untouched` -- a request that fails changes its count only.
-/
import FormulaGraph.Proofs.Store.Session

namespace FormulaGraph

namespace Store

variable {s s' : Store} {α β : Type}

/-! ## 1. Elementary steps -/

/-- A question to the store, which may be refused. -/
def ask (question : Store → Except StoreError α) : StoreM α := fun s =>
  match question s with
  | .ok answer => .ok answer s
  | .error e => .error e s

/-- Refuses unless a condition holds. -/
def demand (holds : Bool) (e : StoreError) : Except StoreError Unit :=
  if holds then .ok () else .error e

/-- Work that is taken as a whole: the store it makes, or the one from before. -/
def whole (work : Store → Except StoreError (α × Store)) : StoreM α := fun s =>
  match work s with
  | .ok (result, s') => .ok result s'
  | .error e => .error e s

/-- Counts a call; this stays also if the call was told to fail. -/
def record (call : StoreCall) : StoreM Unit := do
  modify (·.counted call)
  ask fun s => demand (!s.faults.contains (call, s.calls call)) (.injected call)

theorem modify_bind (f : Store → Store) (rest : Unit → StoreM β) (s : Store) :
    (modify f >>= rest) s = rest () (f s) := rfl

theorem get_bind (rest : Store → StoreM β) (s : Store) : (get >>= rest) s = rest s s := rfl

/-- Writing for each member of a list, one after the other. -/
theorem forM_modify (members : List α) (f : α → Store → Store) (s : Store) :
    (members.forM fun a => modify (f a) : StoreM Unit) s =
      .ok () (members.foldl (fun s a => f a s) s) := by
  induction members generalizing s with
  | nil => rfl
  | cons a members ih => exact ih (f a s)

theorem forM_modify_bind (members : List α) (f : α → Store → Store) (rest : Unit → StoreM β)
    (s : Store) : (members.forM (fun a => modify (f a)) >>= rest) s =
      rest () (members.foldl (fun s a => f a s) s) :=
  bindM_of_eq_ok (forM_modify members f s)

theorem ask_of_ok {question : Store → Except StoreError α} {a : α} (h : question s = .ok a) :
    ask question s = .ok a s := by
  rw [ask, h]

theorem ask_of_error {question : Store → Except StoreError α} {e : StoreError}
    (h : question s = .error e) : ask question s = .error e s := by
  rw [ask, h]

/-- A question before work is a part of the work. -/
theorem ask_bind_whole (question : Store → Except StoreError α)
    (work : α → Store → Except StoreError (β × Store)) :
    (ask question >>= fun a => whole (work a)) =
      whole fun s => question s >>= fun a => work a s := by
  funext s
  show EStateM.bind _ _ s = _
  cases h : question s with
  | ok a =>
    simp only [EStateM.bind, ask_of_ok h, whole, h]
    rfl
  | error e =>
    simp only [EStateM.bind, ask_of_error h, whole, h]
    rfl

/-- A question before steps that come to work as a whole. -/
theorem ask_bind_of_eq {question : Store → Except StoreError α} {steps : α → StoreM β}
    {work : α → Store → Except StoreError (β × Store)} (h : ∀ a, steps a = whole (work a)) :
    ask question >>= steps = whole fun s => question s >>= fun a => work a s := by
  rw [funext h, ask_bind_whole]

/-- Work and writes behind it are work as a whole, since writes are not refused. -/
theorem whole_bind_writes (work : Store → Except StoreError (α × Store))
    (writes : α → Store → β × Store) :
    (whole work >>= fun a => whole fun s => .ok (writes a s)) =
      whole fun s => work s >>= fun made => .ok (writes made.1 made.2) := by
  funext s
  show EStateM.bind _ _ s = _
  cases h : work s with
  | ok made =>
    simp only [EStateM.bind, whole, h]
    rfl
  | error e =>
    simp only [EStateM.bind, whole, h]
    rfl

theorem perform_eq (call : StoreCall) (work : Store → Except StoreError (α × Store)) :
    perform call work = record call >>= fun _ => whole work := by
  funext s
  show (let s := s.counted call
    if s.faults.contains (call, s.calls call) then .error (.injected call) s
    else whole work s) = EStateM.bind _ _ s
  cases h : (s.counted call).faults.contains (call, (s.counted call).calls call) with
  | true =>
    have hr : record call s = .error (.injected call) (s.counted call) := by
      rw [record, modify_bind]
      exact ask_of_error (by rw [h]; rfl)
    simp only [EStateM.bind, hr, h, if_true]
  | false =>
    have hr : record call s = .ok () (s.counted call) := by
      rw [record, modify_bind]
      exact ask_of_ok (by rw [h]; rfl)
    simp only [EStateM.bind, hr, h, Bool.false_eq_true, if_false]

/-! ## 2. The calls in steps -/

namespace InPlace

/-- Takes a name, writes the record under it, and then the order of creation. -/
def insert (container : String) (r : Record) : StoreM String := do
  let siblings := ((← get).siblings.lookup container).getD {}
  let last := (siblings.numbers.lookup r.name).getD 0
  let (name, number) := uniqueName r.name last siblings.names
  modify fun s => { s with
    siblings := Assoc.put container
      ⟨siblings.names, Assoc.put r.name number siblings.numbers⟩ s.siblings }
  modify fun s => { s with
    siblings := Assoc.modify container (fun c => { c with names := name :: c.names }) s.siblings }
  let path := childPath container name
  modify fun s => { s with records := Assoc.put path { r with name := name } s.records }
  modify fun s => { s with order := s.order ++ [path] }
  return path

/-- Putting the name behind its number leaves both. -/
theorem insert_eq (container : String) (r : Record) :
    insert container r = whole fun s => .ok (s.insert container r) := by
  funext s
  rw [insert, get_bind]
  simp only [modify_bind, Assoc.modify_put]
  rfl

def createCompound (parent name : String) : StoreM String := do
  record .createCompound
  ask fun s => demand (s.hasContainer parent) (.notFound parent)
  insert parent (compoundRecord parent name)

def createInputPort (compound name : String) (skipExisting : Bool) : StoreM String := do
  record .createInputPort
  let r ← ask (·.findCompound compound)
  if skipExisting && r.inputs.contains name then
    return portPath compound name
  else
    let port := (uniqueName name 0 r.inputs).1
    modify (·.addInput compound port)
    return portPath compound port

def createOutputPort (compound name : String) : StoreM String := do
  record .createOutputPort
  let r ← ask (·.findCompound compound)
  let port := (uniqueName name 0 r.outputs).1
  modify (·.addOutput compound port)
  return portPath compound port

def createNode (compound : String) (type : NodeType) : StoreM String := do
  record .createNode
  let _ ← ask (·.findCompound compound)
  insert compound (nodeRecord compound type)

def setLiteralValue (node : String) (value : Float) : StoreM Unit := do
  record .setLiteralValue
  let r ← ask (·.find node)
  ask fun _ => demand (r.nodeType.any NodeType.isConstant) (.portNotFound node "value")
  modify (·.setValue node value)

/-- The first input of a node that no wire leads to. One that is added is written at once, before
    the wire. -/
def nextInput (path : String) (r : Record) : StoreM String := do
  let driven := (← get).driven
  match (r.inputs.map (portPath path)).find? (!driven.contains ·) with
  | some port => return port
  | none =>
    let name := addedInput r.inputs.length
    modify (·.addInput path name)
    return portPath path name

def targetPort (compound : String) (target : PortRef) : StoreM String := do
  let refused :=
    StoreError.invalidConnection compound target.path "not a target inside the compound"
  match target with
  | .node path =>
    ask fun _ => demand (isWithin compound path) refused
    let r ← ask (·.find path)
    nextInput path r
  | .compoundOutput port =>
    ask (·.checkPort compound port Record.outputs)
    ask fun s => demand (!s.isDriven port)
      (.invalidConnection compound port "the output port is already connected")
    return port
  | .compoundInput _ => throw refused

def connect (compound : String) (source target : PortRef) (kind : WireKind) : StoreM Unit := do
  record .connect
  ask fun _ => demand (fits kind source target)
    (.invalidConnection source.path target.path s!"endpoints do not fit a {kind.name} connection")
  let start ← ask (·.sourcePort compound source)
  let stop ← targetPort compound target
  modify fun s => { s with driven := mark stop s.driven }
  modify fun s => { s with wires := s.wires ++ [⟨start, stop, kind⟩] }

def deleteNode (node : String) : StoreM Unit := do
  record .deleteNode
  let _ ← ask (·.find node)
  let removed := (← get).records.filter fun e => covers node e.1
  modify fun s => { s with records := s.records.filter fun e => !covers node e.1 }
  removed.forM fun e => modify fun s => { s with siblings := releaseName s.siblings e.2 }
  modify fun s => { s with siblings := s.siblings.filter fun e => !covers node e.1 }
  modify fun s => { s with order := s.order.filter (!covers node ·) }
  let cut := (← get).wires.filter (touches node)
  modify fun s => { s with wires := s.wires.filter (!touches node ·) }
  cut.forM fun w => modify fun s => { s with driven := s.driven.filter (· != w.target) }

/-! ## 3. The steps come to the calls -/

/-- A call in steps comes to the call if the steps behind its count do. -/
theorem eq_perform {call : StoreCall} {steps : StoreM α}
    {work : Store → Except StoreError (α × Store)} (h : steps = whole work) :
    (record call >>= fun _ => steps) = perform call work := by
  rw [perform_eq, h]

theorem createCompound_eq (parent name : String) :
    createCompound parent name = Store.createCompound parent name := by
  refine eq_perform ?_
  rw [ask_bind_of_eq fun _ => insert_eq parent _]
  refine congrArg whole (funext fun s => ?_)
  cases h : s.hasContainer parent <;> rfl

theorem createInputPort_eq (compound name : String) (skip : Bool) :
    createInputPort compound name skip = Store.createInputPort compound name skip := by
  refine eq_perform (ask_bind_of_eq fun r => ?_)
  funext s
  cases h : skip && r.inputs.contains name <;> rfl

theorem createOutputPort_eq (compound name : String) :
    createOutputPort compound name = Store.createOutputPort compound name :=
  eq_perform (ask_bind_of_eq fun _ => rfl)

theorem createNode_eq (compound : String) (type : NodeType) :
    createNode compound type = Store.createNode compound type :=
  eq_perform (ask_bind_of_eq fun _ => insert_eq compound _)

theorem setLiteralValue_eq (node : String) (value : Float) :
    setLiteralValue node value = Store.setLiteralValue node value := by
  refine eq_perform (ask_bind_of_eq fun r => ?_)
  funext s
  cases h : r.nodeType.any NodeType.isConstant <;> rfl

theorem nextInput_eq (path : String) (r : Record) :
    nextInput path r = whole fun s =>
      match (r.inputs.map (portPath path)).find? (!s.isDriven ·) with
      | some port => .ok (port, s)
      | none => .ok (portPath path (addedInput r.inputs.length),
          s.addInput path (addedInput r.inputs.length)) := by
  funext s
  rw [nextInput, get_bind]
  simp only [whole, isDriven]
  cases (r.inputs.map (portPath path)).find? (!s.driven.contains ·) <;> rfl

/-- The target is refused before a port is added. -/
theorem targetPort_eq (compound : String) (target : PortRef) :
    targetPort compound target = whole fun s => s.targetPort compound target := by
  cases target with
  | node path =>
    refine (ask_bind_of_eq fun _ => ask_bind_of_eq (nextInput_eq path)).trans ?_
    refine congrArg whole (funext fun s => ?_)
    rw [demand, Store.targetPort]
    cases isWithin compound path <;> rfl
  | compoundInput path => rfl
  | compoundOutput port =>
    have hport (_ : Unit) : (pure port : StoreM String) = whole fun s => .ok (port, s) := rfl
    refine (ask_bind_of_eq fun _ => ask_bind_of_eq hport).trans ?_
    refine congrArg whole (funext fun s => ?_)
    rw [Store.targetPort, demand]
    cases s.isDriven port <;> rfl

/-- Both ends are settled before the wire is written. -/
theorem connect_eq (compound : String) (source target : PortRef) (kind : WireKind) :
    connect compound source target kind = Store.connect compound source target kind := by
  refine eq_perform ?_
  have hwire (start : String) : (do
      let stop ← targetPort compound target
      modify fun s => { s with driven := mark stop s.driven }
      modify fun s => { s with wires := s.wires ++ [⟨start, stop, kind⟩] } : StoreM Unit) =
      whole fun s => s.targetPort compound target >>= fun made =>
        .ok ((), made.2.addWire ⟨start, made.1, kind⟩) := by
    rw [targetPort_eq]
    exact whole_bind_writes _ fun stop s => ((), s.addWire ⟨start, stop, kind⟩)
  refine (ask_bind_of_eq fun _ => ask_bind_of_eq hwire).trans ?_
  refine congrArg whole (funext fun s => ?_)
  rw [demand]
  cases fits kind source target <;> rfl

/-- Giving names back one by one touches the names only. -/
theorem foldl_releaseName (removed : List (String × Record)) (s : Store) :
    removed.foldl (fun s e => { s with siblings := releaseName s.siblings e.2 }) s =
      { s with
        siblings := removed.foldl (fun siblings e => releaseName siblings e.2) s.siblings } := by
  induction removed generalizing s with
  | nil => rfl
  | cons e removed ih => exact ih { s with siblings := releaseName s.siblings e.2 }

/-- Taking marks away one by one takes away those of the wires that are cut. -/
theorem foldl_unmark (cut : List Wire) (s : Store) :
    cut.foldl (fun s w => { s with driven := s.driven.filter (· != w.target) }) s =
      { s with driven := s.driven.filter fun port => !cut.any (·.target == port) } := by
  induction cut generalizing s with
  | nil => simp
  | cons w cut ih =>
    rw [List.foldl_cons, ih, List.filter_filter]
    congr 1
    refine List.filter_congr fun port _ => ?_
    rw [List.any_cons, Bool.not_or, Bool.and_comm, bne, BEq.comm]

theorem deleteNode_eq (node : String) : deleteNode node = Store.deleteNode node := by
  refine eq_perform (ask_bind_of_eq fun _ => ?_)
  funext s
  rw [get_bind, modify_bind, forM_modify_bind, foldl_releaseName, modify_bind, modify_bind,
    get_bind, modify_bind, forM_modify, foldl_unmark]
  rfl

end InPlace

/-! ## 4. Requests that fail -/

namespace Request

/-- Makes a request. Calls that make something give its path. -/
def attempt : Request → StoreM (Option String)
  | createCompound parent name => some <$> Store.createCompound parent name
  | createInputPort compound name skip => some <$> Store.createInputPort compound name skip
  | createOutputPort compound name => some <$> Store.createOutputPort compound name
  | createNode compound type => some <$> Store.createNode compound type
  | setLiteralValue node value => (fun _ => none) <$> Store.setLiteralValue node value
  | connect compound source target kind =>
    (fun _ => none) <$> Store.connect compound source target kind
  | deleteNode node => (fun _ => none) <$> Store.deleteNode node
  | failOn call nth => (fun _ => none) <$> (modify (·.failOn call nth) : StoreM Unit)
  | look container => (fun _ => none) <$> (modify (·.look container) : StoreM Unit)

/-- Makes a request in elementary steps. -/
def inPlace : Request → StoreM (Option String)
  | createCompound parent name => some <$> InPlace.createCompound parent name
  | createInputPort compound name skip => some <$> InPlace.createInputPort compound name skip
  | createOutputPort compound name => some <$> InPlace.createOutputPort compound name
  | createNode compound type => some <$> InPlace.createNode compound type
  | setLiteralValue node value => (fun _ => none) <$> InPlace.setLiteralValue node value
  | connect compound source target kind =>
    (fun _ => none) <$> InPlace.connect compound source target kind
  | deleteNode node => (fun _ => none) <$> InPlace.deleteNode node
  | failOn call nth => (fun _ => none) <$> (modify (·.failOn call nth) : StoreM Unit)
  | look container => (fun _ => none) <$> (modify (·.look container) : StoreM Unit)

/-- The call that a request is counted as. -/
def call? : Request → Option StoreCall
  | createCompound .. => some .createCompound
  | createInputPort .. => some .createInputPort
  | createOutputPort .. => some .createOutputPort
  | createNode .. => some .createNode
  | setLiteralValue .. => some .setLiteralValue
  | connect .. => some .connect
  | deleteNode .. => some .deleteNode
  | failOn .. => none
  | look .. => none

/-- **In place and as a whole, every request comes to the same.** -/
theorem inPlace_eq (q : Request) : q.inPlace = q.attempt := by
  cases q with
  | createCompound parent name => rw [inPlace, InPlace.createCompound_eq, attempt]
  | createInputPort compound name skip => rw [inPlace, InPlace.createInputPort_eq, attempt]
  | createOutputPort compound name => rw [inPlace, InPlace.createOutputPort_eq, attempt]
  | createNode compound type => rw [inPlace, InPlace.createNode_eq, attempt]
  | setLiteralValue node value => rw [inPlace, InPlace.setLiteralValue_eq, attempt]
  | connect compound source target kind => rw [inPlace, InPlace.connect_eq, attempt]
  | deleteNode node => rw [inPlace, InPlace.deleteNode_eq, attempt]
  | failOn call nth => rfl
  | look container => rfl

theorem map_error {f : α → β} {x : StoreM α} {e : StoreError} (h : (f <$> x) s = .error e s') :
    x s = .error e s' := by
  have h : EStateM.map f x s = .error e s' := h
  unfold EStateM.map at h
  cases hx : x s with
  | ok a s₁ => simp [hx] at h
  | error e₁ s₁ => simpa [hx] using h

theorem stateOf_map (f : α → β) (x : StoreM α) (s : Store) :
    stateOf ((f <$> x) s) = stateOf (x s) := by
  show stateOf (EStateM.map f x s) = _
  unfold EStateM.map
  cases x s <;> rfl

theorem run_eq (q : Request) (s : Store) : q.run s = stateOf (q.attempt s) := by
  cases q with
  | failOn call nth => rfl
  | look container => rfl
  | _ => exact (stateOf_map _ _ s).symm

/-- What fails is one of the seven calls, and it leaves the store with the call counted. -/
theorem attempt_error {q : Request} {e : StoreError} (h : q.attempt s = .error e s') :
    ∃ call, q.call? = some call ∧ s' = s.counted call := by
  cases q with
  | failOn call nth => cases map_error h
  | look container => cases map_error h
  | _ => exact ⟨_, rfl, perform_error (map_error h)⟩

end Request

/-- **Nothing has changed but the count of one call.** -/
structure Untouched (s : Store) (call : StoreCall) (s' : Store) : Prop where
  /-- The nodes with their ports and values. -/
  records : s'.records = s.records
  order : s'.order = s.order
  /-- The names in use and the last numbers handed out. -/
  siblings : s'.siblings = s.siblings
  wires : s'.wires = s.wires
  driven : s'.driven = s.driven
  focus : s'.focus = s.focus
  faults : s'.faults = s.faults
  counted : s'.calls call = s.calls call + 1
  others : ∀ other, other ≠ call → s'.calls other = s.calls other

theorem untouched_counted (s : Store) (call : StoreCall) : s.Untouched call (s.counted call) where
  records := rfl
  order := rfl
  siblings := rfl
  wires := rfl
  driven := rfl
  focus := rfl
  faults := rfl
  counted := calls_counted_self s call
  others _ h := calls_counted_of_ne h

/-- **A request that fails leaves no trace but its count**, told to fail or refused for a reason of
    its own, in whatever store it is made, also if it is made step by step in place. -/
theorem failed_request_untouched {q : Request} {s s' : Store} {e : StoreError}
    (h : q.attempt s = .error e s') :
    q.inPlace s = .error e s' ∧ q.run s = s' ∧
      ∃ call, q.call? = some call ∧ s.Untouched call s' := by
  obtain ⟨call, hcall, hs⟩ := Request.attempt_error h
  refine ⟨by rw [Request.inPlace_eq, h], by rw [Request.run_eq, h]; rfl, call, hcall, ?_⟩
  rw [hs]
  exact s.untouched_counted call

/-- The output has its wire already; that is found behind all other checks of the connection. -/
theorem failed_request_untouched_occupied :
    let qs : List Request :=
      [.createCompound "/" "a", .createNode "/a" .constant, .createOutputPort "/a" "y",
        .connect "/a" (.node "/a/float") (.compoundOutput "/a.y") .nodeToOutput]
    let q : Request := .connect "/a" (.node "/a/float") (.compoundOutput "/a.y") .nodeToOutput
    let e : StoreError := .invalidConnection "/a" "/a.y" "the output port is already connected"
    let s' := (session qs).counted .connect
    (session qs).wires.length = 1 ∧ s'.calls .connect = 2 ∧
      q.attempt (session qs) = .error e s' ∧ q.inPlace (session qs) = .error e s' ∧
      q.run (session qs) = s' ∧
      ∃ call, q.call? = some call ∧ (session qs).Untouched call s' := by
  intro qs q e s'
  have h : q.attempt (session qs) = .error e s' := by rfl
  exact ⟨by decide +kernel, by decide +kernel, h, failed_request_untouched h⟩

end Store

end FormulaGraph
