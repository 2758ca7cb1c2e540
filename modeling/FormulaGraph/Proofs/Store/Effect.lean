/-
  File:      FormulaGraph/Proofs/Store/Effect.lean
  Subject:   What a call that succeeds has found and done.

  One statement for each call: the store it leaves in terms of the elementary changes `insert`,
  `updateRecord` and `without`. Later proofs use these and do not open the calls again.

  * `perform_ok_iff` -- a call succeeds if it is not told to fail and its work succeeds;
  * `createCompound_ok_iff`, …, `deleteNode_ok_iff` -- the work of each call;
  * `SourcePort`, `TargetPort` -- the ports that a wire is put between.
-/
import FormulaGraph.Proofs.Bind
import FormulaGraph.Proofs.Store.Path

namespace FormulaGraph

namespace Store

variable {s s' : Store}

/-! ## 1. Counting -/

/-- Whether the next call of a kind is told to fail. -/
def refuses (s : Store) (call : StoreCall) : Bool := s.faults.contains (call, s.calls call + 1)

@[simp] theorem calls_counted_self (s : Store) (call : StoreCall) :
    (s.counted call).calls call = s.calls call + 1 := by
  simp [counted]

theorem calls_counted_of_ne {call other : StoreCall} (h : other ≠ call) :
    (s.counted call).calls other = s.calls other := by
  simp [counted, h]

theorem perform_ok_iff {α : Type} {call : StoreCall}
    {work : Store → Except StoreError (α × Store)} {a : α} :
    perform call work s = .ok a s' ↔
      s.refuses call = false ∧ work (s.counted call) = .ok (a, s') := by
  unfold perform refuses
  simp only [calls_counted_self]
  split
  · rename_i hf
    have hf : s.faults.contains (call, s.calls call + 1) = true := hf
    simp only [hf, reduceCtorEq, Bool.true_eq_false, false_and]
  · rename_i hf
    have hf : s.faults.contains (call, s.calls call + 1) = false := Bool.eq_false_iff.mpr hf
    simp only [hf, true_and]
    split
    · rename_i hw
      simp [hw]
    · rename_i hw
      simp [hw]

/-! ## 2. Looking things up -/

theorem hasContainer_iff {container : String} : s.hasContainer container = true ↔
    container = rootPath ∨ ∃ r, s.record? container = some r ∧ r.isCompound = true := by
  simp [hasContainer, Option.any_eq_true]

theorem find_ok_iff {path : String} {r : Record} :
    s.find path = .ok r ↔ s.record? path = some r := by
  unfold find
  split
  · rename_i hr
    simp [hr]
  · rename_i hr
    simp [hr]

theorem findCompound_ok_iff {path : String} {r : Record} :
    s.findCompound path = .ok r ↔ s.record? path = some r ∧ r.isCompound = true := by
  unfold findCompound
  split
  · rename_i r' hr
    rw [hr]
    by_cases hc : r'.isCompound = true
    · rw [if_pos hc]
      constructor
      · intro h
        cases h
        exact ⟨rfl, hc⟩
      · rintro ⟨h, _⟩
        cases h
        rfl
    · rw [if_neg hc]
      constructor
      · intro h
        cases h
      · rintro ⟨h, h'⟩
        cases h
        exact absurd h' hc
  · rename_i hr
    simp [hr]

theorem record?_updateRecord (s : Store) (path other : String) (f : Record → Record) :
    (s.updateRecord path f).record? other =
      if other = path then (s.record? other).map f else s.record? other :=
  Assoc.lookup_modify path other f s.records

theorem record?_without (s : Store) (node path : String) :
    (s.without node).record? path = if covers node path then none else s.record? path := by
  have h := Assoc.lookup_filter (fun p => !covers node p) path s.records
  unfold record? without
  rw [h]
  cases covers node path <;> rfl

/-! ## 3. Making nodes and ports -/

/-- The record of a compound that has just been made. -/
def compoundRecord (parent name : String) : Record :=
  { name := name, container := parent, nodeType := none }

/-- The record of a node that has just been made. -/
def nodeRecord (compound : String) (type : NodeType) : Record :=
  { name := type.shortName
    container := compound
    nodeType := some type
    inputs := if type.isConstant then [] else [inputName]
    outputs := [outputName] }

theorem createCompound_ok_iff {parent name path : String} :
    createCompound parent name s = .ok path s' ↔
      s.refuses .createCompound = false ∧ s.hasContainer parent = true ∧
        (s.counted .createCompound).insert parent (compoundRecord parent name) = (path, s') := by
  rw [createCompound, perform_ok_iff]
  refine and_congr_right fun _ => ?_
  by_cases h : s.hasContainer parent = true
  · have h' : (s.counted .createCompound).hasContainer parent = true := h
    simp only [h, h', if_true, true_and, Except.ok.injEq]
    rfl
  · have h' : ¬ (s.counted .createCompound).hasContainer parent = true := h
    simp only [h, h', reduceCtorEq, false_and, if_false]

/-- The store with one more input port of a node. -/
def addInput (s : Store) (path port : String) : Store :=
  s.updateRecord path fun r => { r with inputs := r.inputs ++ [port] }

/-- The store with one more output port of a node. -/
def addOutput (s : Store) (path port : String) : Store :=
  s.updateRecord path fun r => { r with outputs := r.outputs ++ [port] }

/-- An input port is taken as it is, or a new one gets a free name. -/
theorem createInputPort_ok_iff {compound name port : String} {skip : Bool} :
    createInputPort compound name skip s = .ok port s' ↔
      s.refuses .createInputPort = false ∧ ∃ r, s.record? compound = some r ∧
        r.isCompound = true ∧
        (((skip && r.inputs.contains name) = true ∧ port = portPath compound name ∧
            s' = s.counted .createInputPort) ∨
          ((skip && r.inputs.contains name) = false ∧
            port = portPath compound (uniqueName name 0 r.inputs).1 ∧
            s' = (s.counted .createInputPort).addInput compound
              (uniqueName name 0 r.inputs).1)) := by
  rw [createInputPort, perform_ok_iff]
  refine and_congr_right fun _ => ?_
  simp only [bind_ok_iff, findCompound_ok_iff, and_assoc]
  refine exists_congr fun r => and_congr_right fun _ => and_congr_right fun _ => ?_
  by_cases h : (skip && r.inputs.contains name) = true
  · simp only [h, if_true, true_and, Bool.true_eq_false, false_and, or_false]
    constructor
    · intro he
      cases he
      exact ⟨rfl, rfl⟩
    · rintro ⟨rfl, rfl⟩
      rfl
  · have h : (skip && r.inputs.contains name) = false := by simpa using h
    simp only [h, Bool.false_eq_true, if_false, false_and, true_and, false_or]
    constructor
    · intro he
      cases he
      exact ⟨rfl, rfl⟩
    · rintro ⟨rfl, rfl⟩
      rfl

theorem createOutputPort_ok_iff {compound name port : String} :
    createOutputPort compound name s = .ok port s' ↔
      s.refuses .createOutputPort = false ∧ ∃ r, s.record? compound = some r ∧
        r.isCompound = true ∧ port = portPath compound (uniqueName name 0 r.outputs).1 ∧
        s' = (s.counted .createOutputPort).addOutput compound (uniqueName name 0 r.outputs).1 := by
  rw [createOutputPort, perform_ok_iff]
  refine and_congr_right fun _ => ?_
  simp only [bind_ok_iff, findCompound_ok_iff, and_assoc]
  refine exists_congr fun r => and_congr_right fun _ => and_congr_right fun _ => ?_
  constructor
  · intro he
    cases he
    exact ⟨rfl, rfl⟩
  · rintro ⟨rfl, rfl⟩
    rfl

theorem createNode_ok_iff {compound path : String} {type : NodeType} :
    createNode compound type s = .ok path s' ↔
      s.refuses .createNode = false ∧ (∃ r, s.record? compound = some r ∧ r.isCompound = true) ∧
        (s.counted .createNode).insert compound (nodeRecord compound type) = (path, s') := by
  rw [createNode, perform_ok_iff]
  refine and_congr_right fun _ => ?_
  simp only [bind_ok_iff, findCompound_ok_iff]
  constructor
  · rintro ⟨r, hr, he⟩
    exact ⟨⟨r, hr⟩, Except.ok.inj he⟩
  · rintro ⟨⟨r, hr⟩, he⟩
    exact ⟨r, hr, congrArg Except.ok he⟩

/-- The store with another value of a node. -/
def setValue (s : Store) (node : String) (value : Float) : Store :=
  s.updateRecord node fun r => { r with value := some value }

theorem setLiteralValue_ok_iff {node : String} {value : Float} :
    setLiteralValue node value s = .ok () s' ↔
      s.refuses .setLiteralValue = false ∧ ∃ r, s.record? node = some r ∧
        r.nodeType = some NodeType.constant ∧
        s' = (s.counted .setLiteralValue).setValue node value := by
  rw [setLiteralValue, perform_ok_iff]
  refine and_congr_right fun _ => ?_
  simp only [bind_ok_iff, find_ok_iff]
  refine exists_congr fun r => and_congr_right fun _ => ?_
  have ht : r.nodeType.any NodeType.isConstant = true ↔ r.nodeType = some NodeType.constant := by
    simp [Option.any_eq_true, NodeType.isConstant]
  by_cases h : r.nodeType.any NodeType.isConstant = true
  · rw [if_pos h, ← ht]
    constructor
    · intro he
      cases he
      exact ⟨h, rfl⟩
    · rintro ⟨_, rfl⟩
      rfl
  · rw [if_neg h, ← ht]
    constructor
    · intro he
      cases he
    · rintro ⟨h', _⟩
      exact absurd h' h

theorem deleteNode_ok_iff {node : String} :
    deleteNode node s = .ok () s' ↔ s.refuses .deleteNode = false ∧ (s.record? node).isSome ∧
      s' = (s.counted .deleteNode).without node := by
  rw [deleteNode, perform_ok_iff]
  refine and_congr_right fun _ => ?_
  simp only [bind_ok_iff, find_ok_iff, Option.isSome_iff_exists]
  constructor
  · rintro ⟨r, hr, he⟩
    cases he
    exact ⟨⟨r, hr⟩, rfl⟩
  · rintro ⟨⟨r, hr⟩, rfl⟩
    exact ⟨r, hr, rfl⟩

/-! ## 4. Wires -/

theorem checkPort_ok_iff {compound port : String} {ports : Record → List String} :
    s.checkPort compound port ports = .ok () ↔ ∃ r, s.record? compound = some r ∧
      r.isCompound = true ∧ ∃ name ∈ ports r, portPath compound name = port := by
  rw [checkPort, bind_ok_iff]
  simp only [findCompound_ok_iff, and_assoc]
  refine exists_congr fun r => and_congr_right fun _ => and_congr_right fun _ => ?_
  by_cases h : (ports r).any (portPath compound · == port) = true
  · rw [if_pos h]
    exact ⟨fun _ => by simpa using h, fun _ => rfl⟩
  · rw [if_neg h]
    constructor
    · intro he
      cases he
    · intro he
      exact absurd (by simpa using he) h

/-- A port that a wire may leave from: the first output of a node inside the compound, or an input
    of the compound. -/
inductive SourcePort (s : Store) (compound : String) : PortRef → String → Prop where
  | node {path port : String} {r : Record} (within : isWithin compound path = true)
      (found : s.record? path = some r) (first : r.outputs.head? = some port) :
      SourcePort s compound (.node path) (portPath path port)
  | input {port : String} {r : Record} (found : s.record? compound = some r)
      (isCompound : r.isCompound = true) (listed : port ∈ r.inputs) :
      SourcePort s compound (.compoundInput (portPath compound port)) (portPath compound port)

theorem sourcePort_ok_iff {compound port : String} {source : PortRef} :
    s.sourcePort compound source = .ok port ↔ SourcePort s compound source port := by
  constructor
  · intro h
    cases source with
    | node path =>
      simp only [sourcePort] at h
      split at h
      · rename_i hw
        obtain ⟨r, hr, h⟩ := bind_ok_iff.mp h
        split at h
        · rename_i first rest ho
          cases h
          exact .node hw (find_ok_iff.mp hr) (by rw [ho]; rfl)
        · cases h
      · cases h
    | compoundInput path =>
      simp only [sourcePort] at h
      obtain ⟨u, hu, h⟩ := bind_ok_iff.mp h
      obtain ⟨r, hr, hc, name, hn, rfl⟩ := checkPort_ok_iff.mp hu
      cases h
      exact .input hr hc hn
    | compoundOutput path => cases h
  · intro h
    cases h with
    | @node path port r within found first =>
      simp only [sourcePort, within, if_true]
      refine bind_ok_iff.mpr ⟨r, find_ok_iff.mpr found, ?_⟩
      obtain ⟨rest, ho⟩ := List.head?_eq_some_iff.mp first
      rw [ho]
      rfl
    | @input port r found isCompound listed =>
      exact bind_ok_iff.mpr
        ⟨(), checkPort_ok_iff.mpr ⟨r, found, isCompound, port, listed, rfl⟩, rfl⟩

/-- A port that a wire may arrive at, and the store that has it: the first input of a node that no
    wire leads to, one more input if there is none, or an output of the compound. -/
inductive TargetPort (s : Store) (compound : String) : PortRef → String → Store → Prop where
  | free {path port : String} {r : Record} (within : isWithin compound path = true)
      (found : s.record? path = some r)
      (first : r.inputs.find? (fun q => !s.isDriven (portPath path q)) = some port) :
      TargetPort s compound (.node path) (portPath path port) s
  | added {path : String} {r : Record} (within : isWithin compound path = true)
      (found : s.record? path = some r)
      (full : ∀ q ∈ r.inputs, s.isDriven (portPath path q) = true) :
      TargetPort s compound (.node path) (portPath path (addedInput r.inputs.length))
        (s.addInput path (addedInput r.inputs.length))
  | output {port : String} {r : Record} (found : s.record? compound = some r)
      (isCompound : r.isCompound = true) (listed : port ∈ r.outputs)
      (idle : s.isDriven (portPath compound port) = false) :
      TargetPort s compound (.compoundOutput (portPath compound port)) (portPath compound port) s

theorem find?_map_portPath (s : Store) (path : String) (ports : List String) :
    (ports.map (portPath path)).find? (!s.isDriven ·) =
      (ports.find? fun q => !s.isDriven (portPath path q)).map (portPath path) := by
  rw [List.find?_map]
  rfl

theorem targetPort_ok_iff {compound port : String} {target : PortRef} :
    s.targetPort compound target = .ok (port, s') ↔ TargetPort s compound target port s' := by
  constructor
  · intro h
    cases target with
    | node path =>
      simp only [targetPort] at h
      split at h
      · rename_i hw
        obtain ⟨r, hr, h⟩ := bind_ok_iff.mp h
        rw [find?_map_portPath] at h
        cases hf : r.inputs.find? fun q => !s.isDriven (portPath path q) with
        | some q =>
          rw [hf] at h
          cases h
          exact .free hw (find_ok_iff.mp hr) hf
        | none =>
          rw [hf] at h
          cases h
          exact .added hw (find_ok_iff.mp hr) (by simpa using hf)
      · cases h
    | compoundInput path => cases h
    | compoundOutput path =>
      simp only [targetPort] at h
      obtain ⟨u, hu, h⟩ := bind_ok_iff.mp h
      obtain ⟨r, hr, hc, name, hn, rfl⟩ := checkPort_ok_iff.mp hu
      split at h
      · cases h
      · rename_i hd
        cases h
        exact .output hr hc hn (by simpa using hd)
  · intro h
    cases h with
    | @free path port r within found first =>
      simp only [targetPort, within, if_true]
      refine bind_ok_iff.mpr ⟨r, find_ok_iff.mpr found, ?_⟩
      rw [find?_map_portPath, first]
      rfl
    | @added path r within found full =>
      simp only [targetPort, within, if_true]
      refine bind_ok_iff.mpr ⟨r, find_ok_iff.mpr found, ?_⟩
      have : r.inputs.find? (fun q => !s.isDriven (portPath path q)) = none := by simpa using full
      rw [find?_map_portPath, this]
      rfl
    | @output port r found isCompound listed idle =>
      refine bind_ok_iff.mpr
        ⟨(), checkPort_ok_iff.mpr ⟨r, found, isCompound, port, listed, rfl⟩, ?_⟩
      rw [if_neg (by simp [idle])]
      rfl

/-- The store with one more wire. -/
def addWire (s : Store) (w : Wire) : Store :=
  { s with driven := mark w.target s.driven, wires := s.wires ++ [w] }

theorem connect_ok_iff {compound : String} {source target : PortRef} {kind : WireKind} :
    connect compound source target kind s = .ok () s' ↔
      s.refuses .connect = false ∧ fits kind source target = true ∧ ∃ start stop s₁,
        SourcePort (s.counted .connect) compound source start ∧
        TargetPort (s.counted .connect) compound target stop s₁ ∧
        s' = s₁.addWire ⟨start, stop, kind⟩ := by
  rw [connect, perform_ok_iff]
  refine and_congr_right fun _ => ?_
  by_cases hf : fits kind source target = true
  · rw [if_pos hf, bind_ok_iff]
    simp only [sourcePort_ok_iff, hf, true_and]
    refine exists_congr fun start => ?_
    constructor
    · rintro ⟨hs, h⟩
      obtain ⟨⟨stop, s₁⟩, ht, h⟩ := bind_ok_iff.mp h
      cases h
      exact ⟨stop, s₁, hs, targetPort_ok_iff.mp ht, rfl⟩
    · rintro ⟨stop, s₁, hs, ht, rfl⟩
      exact ⟨hs, bind_ok_iff.mpr ⟨(stop, s₁), targetPort_ok_iff.mpr ht, rfl⟩⟩
  · rw [if_neg hf]
    simp [hf]

end Store

end FormulaGraph
