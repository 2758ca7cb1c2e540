/-
  File:      FormulaGraph/Proofs/Emission/Furnished.lean
  Subject:   What a run of steps has laid down in an empty store.

  Here a run is taken apart: it has succeeded, and the question is what is there. Nothing is asked
  of the names of nodes, which come from the catalogue. A node's path is told from others by its
  name alone, because no two nodes of a compound share a name.

  * `Port` -- a port by what it is for, and its path;
  * `Furnished` -- the compound, its ports and its nodes, as every step leaves them;
  * `Furnished.fill`, `Furnished.connect` -- one step;
  * `Furnished.connects`, `Furnished.strung` -- a run of connecting steps makes the wires of these
    steps and no others.
-/
import FormulaGraph.Proofs.Emission.Populate

namespace FormulaGraph

open Store

/-! ## 1. Taking a run apart -/

namespace Emission

theorem run_cons_ok {step : BuildStep} {steps : List BuildStep} {e e' : Emission} {s s' : Store}
    (h : run e (step :: steps) s = (e', none, s')) :
    ∃ e₁ s₁, Taken e s step e₁ s₁ ∧ run e₁ steps s₁ = (e', none, s') := by
  unfold run at h
  split at h
  · rename_i e₁ s₁ ht
    exact ⟨e₁, s₁, take_ok_iff.mp ht, h⟩
  · cases h

theorem run_append_ok {a b : List BuildStep} {e e' : Emission} {s s' : Store}
    (h : run e (a ++ b) s = (e', none, s')) :
    ∃ e₁ s₁, run e a s = (e₁, none, s₁) ∧ run e₁ b s₁ = (e', none, s') := by
  induction a generalizing e s with
  | nil => exact ⟨e, s, rfl, h⟩
  | cons step steps ih =>
    obtain ⟨e₁, s₁, ht, h⟩ := run_cons_ok h
    obtain ⟨e₂, s₂, ha, hb⟩ := ih h
    exact ⟨e₂, s₂, (run_cons_of_taken ht).trans ha, hb⟩

end Emission

/-- A compound that was built is what the steps of its plan have made. -/
theorem Plan.run_of_emit {p : Plan} {k : Compound} {s s' : Store} (h : p.emit s = .ok k s') :
    ∃ e, Emission.run {} p.steps s = (e, none, s') ∧ e.finish p.outputPort = .ok k := by
  have hroll : ∀ (e : Emission) (cause : Failure) (s₁ : Store),
      e.rollback (α := Compound) cause s₁ ≠ .ok k s' := by
    intro e cause s₁ hr
    unfold Emission.rollback at hr
    split at hr <;> cases hr
  unfold emit at h
  split at h
  · exact absurd h (hroll _ _ _)
  · rename_i e s₁ hr
    split at h
    · rename_i hf
      cases h
      exact ⟨e, hr, hf⟩
    · exact absurd h (hroll _ _ _)

/-! ## 2. Ports -/

/-- A port of a compound or of a node in it. -/
inductive Port where
  | input (name : String)
  | output
  | nodeInput (node : String) (number : Nat)
  | nodeOutput (node : String)

/-- The path of a port; `k` is the compound. -/
def Port.path (k : String) : Port → String
  | input name => portPath k name
  | output => portPath k outputPortName
  | nodeInput node number => portPath node (addedInput number)
  | nodeOutput node => portPath node outputName

/-- The ports that wires leave from, by the end that was planned. -/
inductive Emission.Leaves (e : Emission) : Endpoint → Port → Prop where
  | input {name : String} (listed : (e.inputPorts.lookup name).isSome) :
      Leaves e (.compoundInput name) (.input name)
  | node {id : Nat} {path : String} (made : e.nodes.lookup id = some path) :
      Leaves e (.node id) (.nodeOutput path)

/-- The ports that wires arrive at, by the end that was planned. -/
inductive Emission.Arrives (e : Emission) (s : Store) : Endpoint → Port → Prop where
  | output : Arrives e s (.compoundOutput outputPortName) .output
  | node {id number : Nat} {path : String} {r : Record} (made : e.nodes.lookup id = some path)
      (found : s.record? path = some r) (listed : addedInput number ∈ r.inputs) :
      Arrives e s (.node id) (.nodeInput path number)

/-- No node has lost an input. -/
def Store.InputsKept (s s' : Store) : Prop :=
  ∀ path r, s.record? path = some r → ∃ r', s'.record? path = some r' ∧ r.inputs ⊆ r'.inputs

theorem Store.InputsKept.refl (s : Store) : s.InputsKept s :=
  fun _ r hr => ⟨r, hr, List.Subset.refl _⟩

theorem Store.InputsKept.trans {s s' s'' : Store} (h : s.InputsKept s') (h' : s'.InputsKept s'') :
    s.InputsKept s'' := by
  intro path r hr
  obtain ⟨r', hr', hsub⟩ := h path r hr
  obtain ⟨r'', hr'', hsub'⟩ := h' path r' hr'
  exact ⟨r'', hr'', List.Subset.trans hsub hsub'⟩

theorem Store.InputsKept.addInput (s : Store) (node port : String) :
    s.InputsKept (s.addInput node port) := by
  intro path r hr
  rw [Store.addInput, record?_updateRecord, hr]
  split
  · exact ⟨_, rfl, List.subset_append_left _ _⟩
  · exact ⟨r, rfl, List.Subset.refl _⟩

theorem Emission.Arrives.kept {e : Emission} {s s' : Store} {target : Endpoint} {q : Port}
    (h : e.Arrives s target q) (hs : s.InputsKept s') : e.Arrives s' target q := by
  cases h with
  | output => exact .output
  | node made found listed =>
    obtain ⟨r', hr', hsub⟩ := hs _ _ found
    exact .node made hr' (hsub listed)

/-- The wire that a step has made. -/
inductive Emission.WireOf (e : Emission) (k : String) (s : Store) : BuildStep → Wire → Prop where
  | connect {kind : WireKind} {source target : Endpoint} {p q : Port} (leaves : e.Leaves source p)
      (arrives : e.Arrives s target q) :
      WireOf e k s (.connect kind source target) ⟨p.path k, q.path k, kind⟩

theorem Emission.WireOf.kept {e : Emission} {k : String} {s s' : Store} {step : BuildStep}
    {w : Wire} (h : e.WireOf k s step w) (hs : s.InputsKept s') : e.WireOf k s' step w := by
  cases h with
  | connect leaves arrives => exact .connect leaves (arrives.kept hs)

/-! ## 3. The invariant -/

/-- A node of the compound `k`, under one of the names in use there. -/
structure Record.IsNodeOf (r : Record) (k : String) (names : List String) (path : String) :
    Prop where
  path_eq : path = childPath k r.name
  named : r.name ∈ names
  container : r.container = k
  isNode : r.isCompound = false
  outputs : r.outputs = [outputName]
  inputs : ∀ port ∈ r.inputs, ∃ number, port = addedInput number

/-- **The compound `k` while it is built in a store of its own.** -/
structure Furnished (k : String) (e : Emission) (s : Store) : Prop where
  ne_root : k ≠ rootPath
  compound : e.compound = some k
  outputPorts : e.outputPorts = [(outputPortName, portPath k outputPortName)]
  record : ∃ r, s.record? k = some r ∧ r.isCompound = true ∧ r.outputs = [outputPortName] ∧
    r.inputs.Nodup ∧ e.inputPorts = r.inputs.map fun name => (name, portPath k name)
  /-- Every other record is one of a node. -/
  nodes : ∀ path r, path ≠ k → s.record? path = some r → r.IsNodeOf k (s.namesIn k) path
  made : ∀ id path, e.nodes.lookup id = some path → path ≠ k ∧ (s.record? path).isSome
  inj : ∀ id other path, e.nodes.lookup id = some path → e.nodes.lookup other = some path →
    id = other

/-- What is found after a value was put was found before, or it is the value. -/
theorem lookup_put_cases {key other : Nat} {value found : String} {entries : List (Nat × String)}
    (h : (Assoc.put key value entries).lookup other = some found) :
    other = key ∧ found = value ∨ entries.lookup other = some found := by
  rw [Assoc.lookup_put] at h
  split at h
  · rename_i ho
    exact .inl ⟨ho, (Option.some.inj h).symm⟩
  · exact .inr h

theorem Record.IsNodeOf.mono {r : Record} {k path : String} {names more : List String}
    (h : r.IsNodeOf k names path) (hs : names ⊆ more) : r.IsNodeOf k more path :=
  { h with named := hs h.named }

namespace Furnished

variable {k : String} {e e' : Emission} {s s' : Store}

/-- Counting a call changes nothing that is laid down. -/
theorem counted (h : Furnished k e s) (call : StoreCall) : Furnished k e (s.counted call) :=
  ⟨h.ne_root, h.compound, h.outputPorts, h.record, h.nodes, h.made, h.inj⟩

theorem eq_of_compound (h : Furnished k e s) {compound : String} (hc : e.compound = some compound) :
    compound = k := by
  rw [h.compound] at hc
  exact (Option.some.inj hc).symm

/-- The record of a node that was made for an expression. -/
theorem node_of_lookup (h : Furnished k e s) {id : Nat} {path : String} {r : Record}
    (hl : e.nodes.lookup id = some path) (hr : s.record? path = some r) :
    r.IsNodeOf k (s.namesIn k) path :=
  h.nodes path r (h.made id path hl).1 hr

/-- A change of one node that keeps it a node. -/
theorem update (h : Furnished k e s) {path : String} (hp : path ≠ k) {f : Record → Record}
    (hf : ∀ r, r.IsNodeOf k (s.namesIn k) path → (f r).IsNodeOf k (s.namesIn k) path) :
    Furnished k e (s.updateRecord path f) := by
  refine ⟨h.ne_root, h.compound, h.outputPorts, ?_, ?_, ?_, h.inj⟩
  · rw [record?_updateRecord, if_neg hp.symm]
    exact h.record
  · intro other r ho hr
    rw [record?_updateRecord] at hr
    split at hr
    · rename_i he
      subst he
      obtain ⟨r₀, hr₀, rfl⟩ := Option.map_eq_some_iff.mp hr
      exact hf r₀ (h.nodes other r₀ ho hr₀)
    · exact h.nodes other r ho hr
  · intro id other hl
    obtain ⟨hne, hsome⟩ := h.made id other hl
    refine ⟨hne, ?_⟩
    rw [record?_updateRecord]
    split
    · rw [Option.isSome_map]
      exact hsome
    · exact hsome

/-! ## 4. Ports and nodes -/

/-- A name is listed exactly if the compound has an input port of that name. -/
theorem lookup_inputPorts (h : Furnished k e s) {r : Record} (hr : s.record? k = some r)
    (name : String) :
    e.inputPorts.lookup name = if name ∈ r.inputs then some (portPath k name) else none := by
  obtain ⟨r', hr', _, _, _, hports⟩ := h.record
  rw [hr] at hr'
  cases hr'
  rw [hports, lookup_map_portPath]

theorem createInputPort (h : Furnished k e s) {name : String}
    (ht : e.Taken s (.createInputPort name true) e' s') :
    Furnished k e' s' ∧ s'.wires = s.wires ∧
      ∀ other ∈ e'.inputPorts.map Prod.fst, other ∈ e.inputPorts.map Prod.fst ∨ other = name := by
  cases ht with
  | createInputPort made call =>
    obtain rfl := h.eq_of_compound made
    obtain ⟨_, r, hr, hcomp, hcases⟩ := createInputPort_ok_iff.mp call
    have hlookup := h.lookup_inputPorts hr name
    obtain ⟨r', hr', _, hout, hnodup, hports⟩ := h.record
    rw [hr] at hr'
    cases hr'
    rcases hcases with ⟨hin, rfl, rfl⟩ | ⟨hin, rfl, rfl⟩
    · -- the port is there and listed
      have hin : name ∈ r.inputs := by simpa using hin
      rw [Emission.withInput, hlookup, if_pos hin]
      exact ⟨h.counted _, rfl, fun other ho => .inl ho⟩
    · have hin : name ∉ r.inputs := by simpa using hin
      rw [uniqueName_of_notMem hin, Emission.withInput, hlookup, if_neg hin]
      refine ⟨⟨h.ne_root, h.compound, h.outputPorts, ?_, ?_, ?_, h.inj⟩, rfl, ?_⟩
      · refine ⟨{ r with inputs := r.inputs ++ [name] }, ?_, hcomp, hout, ?_, ?_⟩
        · rw [addInput, record?_updateRecord, if_pos rfl]
          exact congrArg (Option.map _) hr
        · exact List.nodup_append.mpr ⟨hnodup, List.nodup_singleton _,
            fun a ha b hb => by rw [List.mem_singleton.mp hb]; rintro rfl; exact hin ha⟩
        · show e.inputPorts ++ _ = _
          rw [hports, List.map_append]
          rfl
      · intro path r' hp hr'
        rw [addInput, record?_updateRecord, if_neg hp] at hr'
        exact h.nodes path r' hp hr'
      · intro id path hl
        obtain ⟨hp, hsome⟩ := h.made id path hl
        rw [addInput, record?_updateRecord, if_neg hp]
        exact ⟨hp, hsome⟩
      · intro other ho
        simpa [or_comm] using ho

/-- A name that is free in the compound is free as a path. -/
theorem record?_pathFor (h : Furnished k e s) (wanted : String) :
    s.record? (s.pathFor k wanted) = none := by
  rw [Option.eq_none_iff_forall_ne_some]
  intro r hr
  have hnode := h.nodes _ r (childPath_ne_self h.ne_root _) hr
  have hname : s.nameFor k wanted = r.name := childPath_injective k hnode.path_eq
  exact nameFor_notMem s k wanted (hname ▸ hnode.named)

theorem path_ne_pathFor (h : Furnished k e s) {id : Nat} {path : String}
    (hl : e.nodes.lookup id = some path) (wanted : String) : path ≠ s.pathFor k wanted := by
  intro he
  have hsome := (h.made id path hl).2
  rw [he, h.record?_pathFor wanted] at hsome
  cases hsome

/-- One more node, under a name that is free. It takes the place of an older node of its
    expression. -/
theorem insertNode (h : Furnished k e s) (id : Nat) (type : NodeType) (journal : List String) :
    Furnished k
      { e with journal := journal, nodes := Assoc.put id (s.pathFor k type.shortName) e.nodes }
      (s.insert k (nodeRecord k type)).2 := by
  have hne : s.pathFor k type.shortName ≠ k := childPath_ne_self h.ne_root _
  have hnames : (s.insert k (nodeRecord k type)).2.namesIn k =
      s.nameFor k type.shortName :: s.namesIn k := by
    rw [namesIn_insert, if_pos rfl]
    rfl
  have hrecord : ∀ path, (s.insert k (nodeRecord k type)).2.record? path =
      if path = s.pathFor k type.shortName then
        some { nodeRecord k type with name := s.nameFor k type.shortName }
      else s.record? path := record?_insert s k (nodeRecord k type)
  refine ⟨h.ne_root, h.compound, h.outputPorts, ?_, ?_, ?_, ?_⟩
  · rw [hrecord, if_neg hne.symm]
    exact h.record
  · intro path r hp hr
    rw [hrecord] at hr
    rw [hnames]
    split at hr
    · rename_i he
      cases hr
      refine ⟨he, List.mem_cons_self, rfl, rfl, rfl, fun port hport => ⟨0, ?_⟩⟩
      unfold nodeRecord at hport
      split at hport
      · cases hport
      · exact List.mem_singleton.mp hport
    · exact (h.nodes path r hp hr).mono (List.subset_cons_self _ _)
  · intro other path hl
    rw [hrecord]
    rcases lookup_put_cases hl with ⟨_, rfl⟩ | hl
    · rw [if_pos rfl]
      exact ⟨hne, rfl⟩
    · rw [if_neg (h.path_ne_pathFor hl _)]
      exact h.made other path hl
  · intro a b path ha hb
    rcases lookup_put_cases ha with ⟨rfl, hpa⟩ | ha
    · rcases lookup_put_cases hb with ⟨rfl, _⟩ | hb
      · rfl
      · exact absurd hpa (h.path_ne_pathFor hb _)
    · rcases lookup_put_cases hb with ⟨_, hpb⟩ | hb
      · exact absurd hpb (h.path_ne_pathFor ha _)
      · exact h.inj a b path ha hb

theorem createNode (h : Furnished k e s) {id : Nat} {type : NodeType}
    (ht : e.Taken s (.createNode id type) e' s') :
    Furnished k e' s' ∧ s'.wires = s.wires ∧ e'.inputPorts = e.inputPorts := by
  cases ht with
  | createNode made call =>
    obtain rfl := h.eq_of_compound made
    obtain ⟨_, _, hinsert⟩ := createNode_ok_iff.mp call
    obtain ⟨hpath, hstore⟩ := Prod.mk.inj hinsert
    subst hpath hstore
    exact ⟨(h.counted .createNode).insertNode id type _, rfl, rfl⟩

theorem setLiteralValue (h : Furnished k e s) {id : Nat} {value : Float}
    (ht : e.Taken s (.setLiteralValue id value) e' s') :
    Furnished k e' s' ∧ s'.wires = s.wires ∧ e'.inputPorts = e.inputPorts := by
  cases ht with
  | setLiteralValue made call =>
    obtain ⟨_, r, hr, _, rfl⟩ := setLiteralValue_ok_iff.mp call
    refine ⟨(h.counted _).update (h.made id _ made).1 fun r hn => ?_, rfl, rfl⟩
    exact ⟨hn.path_eq, hn.named, hn.container, hn.isNode, hn.outputs, hn.inputs⟩

end Furnished

/-- A step that makes the port of a variable or a node, or gives a node its value. -/
def BuildStep.fills : BuildStep → Bool
  | .createInputPort _ skipExisting => skipExisting
  | .createNode .. => true
  | .setLiteralValue .. => true
  | _ => false

theorem PlannedNode.fills_of_mem {n : PlannedNode} {step : BuildStep} (h : step ∈ n.steps) :
    step.fills = true := by
  unfold steps at h
  split at h
  · rw [List.mem_singleton.mp h]
    rfl
  · rcases List.mem_cons.mp h with rfl | h
    · rfl
    · obtain ⟨value, _, rfl⟩ := Option.map_eq_some_iff.mp (Option.mem_toList.mp h)
      rfl
  · cases h

namespace Furnished

variable {k : String} {e e' : Emission} {s s' : Store}

/-- **A step that fills the compound** makes no wire, and lists no input port but the one it
    names. -/
theorem fill (h : Furnished k e s) {step : BuildStep} (hf : step.fills = true)
    (ht : e.Taken s step e' s') :
    Furnished k e' s' ∧ s'.wires = s.wires ∧ ∀ name ∈ e'.inputPorts.map Prod.fst,
      name ∈ e.inputPorts.map Prod.fst ∨ step = .createInputPort name true := by
  cases step with
  | createCompound parent name => cases hf
  | createOutputPort name => cases hf
  | connect kind source target => cases hf
  | createInputPort name skip =>
    cases hf
    obtain ⟨hl, hw, hn⟩ := h.createInputPort ht
    refine ⟨hl, hw, fun other ho => (hn other ho).imp_right fun he => ?_⟩
    rw [he]
  | createNode id type =>
    obtain ⟨hl, hw, hp⟩ := h.createNode ht
    exact ⟨hl, hw, fun name hm => .inl (hp ▸ hm)⟩
  | setLiteralValue id value =>
    obtain ⟨hl, hw, hp⟩ := h.setLiteralValue ht
    exact ⟨hl, hw, fun name hm => .inl (hp ▸ hm)⟩

/-- **Steps that fill the compound**, one after the other. -/
theorem filled (h : Furnished k e s) (hw : s.wires = []) (hp : e.inputPorts = [])
    {steps : List BuildStep} (hf : ∀ step ∈ steps, step.fills = true)
    (hr : e.run steps s = (e', none, s')) :
    Furnished k e' s' ∧ s'.wires = [] ∧ ∀ name ∈ e'.inputPorts.map Prod.fst,
      BuildStep.createInputPort name true ∈ steps := by
  refine Emission.run_induct
    (P := fun e s => Furnished k e s ∧ s.wires = [] ∧ ∀ name ∈ e.inputPorts.map Prod.fst,
      BuildStep.createInputPort name true ∈ steps)
    (Q := (· ∈ steps)) ?_ (fun _ hm => hm) ⟨h, hw, ?_⟩ hr
  · intro e₁ s₁ step e₂ s₂ hm hinv ht
    obtain ⟨hl, hw, hn⟩ := hinv
    obtain ⟨hl', hw', hn'⟩ := hl.fill (hf step hm) ht
    refine ⟨hl', hw'.trans hw, fun name hname => ?_⟩
    rcases hn' name hname with hname | rfl
    · exact hn name hname
    · exact hm
  · rw [hp]
    exact fun name hm => absurd hm List.not_mem_nil

/-! ## 5. Wires -/

theorem leaves (h : Furnished k e s) {source : Endpoint} {ref : PortRef} {port : String}
    (href : e.portRef? source = some ref) (hport : SourcePort s k ref port) :
    ∃ p, e.Leaves source p ∧ port = p.path k := by
  cases source with
  | node id =>
    obtain ⟨path, hl, rfl⟩ := Option.map_eq_some_iff.mp href
    cases hport with
    | node within found first =>
      rw [(h.node_of_lookup hl found).outputs] at first
      cases first
      exact ⟨_, .node hl, rfl⟩
  | compoundInput name =>
    obtain ⟨path, hl, rfl⟩ := Option.map_eq_some_iff.mp href
    cases hport with
    | input found isCompound listed =>
      rw [h.lookup_inputPorts found] at hl
      split at hl
      · rename_i hm
        refine ⟨.input name, .input ?_, (Option.some.inj hl).symm⟩
        rw [h.lookup_inputPorts found, if_pos hm]
        rfl
      · cases hl
  | compoundOutput name =>
    obtain ⟨path, hl, rfl⟩ := Option.map_eq_some_iff.mp href
    cases hport

/-- The store with the port that a wire arrives at. -/
theorem arrives (h : Furnished k e s) {target : Endpoint} {ref : PortRef} {port : String}
    (href : e.portRef? target = some ref) (hport : TargetPort s k ref port s') :
    Furnished k e s' ∧ s'.wires = s.wires ∧ s.InputsKept s' ∧
      ∃ q, e.Arrives s' target q ∧ port = q.path k := by
  cases target with
  | node id =>
    obtain ⟨path, hl, rfl⟩ := Option.map_eq_some_iff.mp href
    cases hport with
    | @free _ name r within found first =>
      have hm : name ∈ r.inputs := List.mem_of_find?_eq_some first
      obtain ⟨number, rfl⟩ := (h.node_of_lookup hl found).inputs name hm
      exact ⟨h, rfl, .refl s, _, .node hl found hm, rfl⟩
    | @added _ r within found full =>
      have hrec : (s.addInput path (addedInput r.inputs.length)).record? path =
          some { r with inputs := r.inputs ++ [addedInput r.inputs.length] } := by
        rw [addInput, record?_updateRecord, if_pos rfl, found]
        rfl
      refine ⟨h.update (h.made id path hl).1 fun r' hn => ?_, rfl, .addInput s path _, _,
        .node hl hrec (List.mem_append_right _ List.mem_cons_self), rfl⟩
      refine ⟨hn.path_eq, hn.named, hn.container, hn.isNode, hn.outputs, fun port hp => ?_⟩
      rcases List.mem_append.mp hp with hp | hp
      · exact hn.inputs port hp
      · exact ⟨_, List.mem_singleton.mp hp⟩
  | compoundInput name =>
    obtain ⟨path, hl, rfl⟩ := Option.map_eq_some_iff.mp href
    cases hport
  | compoundOutput name =>
    obtain ⟨path, hl, rfl⟩ := Option.map_eq_some_iff.mp href
    rw [h.outputPorts] at hl
    have hname : name = outputPortName := by
      by_contra hne
      simp [List.lookup_cons, beq_false_of_ne hne] at hl
    subst hname
    cases hport with
    | output found isCompound listed idle =>
      simp only [List.lookup_cons, BEq.rfl, Option.some.injEq] at hl
      exact ⟨h, rfl, .refl s, _, .output, hl.symm⟩

/-- **A step that connects** makes one wire, between the ports that its ends stand for. -/
theorem connect (h : Furnished k e s) {kind : WireKind} {source target : Endpoint}
    (ht : e.Taken s (.connect kind source target) e' s') :
    e' = e ∧ Furnished k e s' ∧ s.InputsKept s' ∧
      ∃ w, s'.wires = s.wires ++ [w] ∧ e.WireOf k s' (.connect kind source target) w := by
  cases ht with
  | connect made source_eq target_eq call =>
    obtain rfl := h.eq_of_compound made
    obtain ⟨_, _, start, stop, s₁, hsource, htarget, rfl⟩ := connect_ok_iff.mp call
    have hc := h.counted .connect
    obtain ⟨p, hp, rfl⟩ := hc.leaves source_eq hsource
    obtain ⟨hl, hw, hkept, q, hq, rfl⟩ := hc.arrives target_eq htarget
    refine ⟨rfl, ⟨hl.ne_root, hl.compound, hl.outputPorts, hl.record, hl.nodes, hl.made, hl.inj⟩,
      hkept, _, ?_, .connect hp (hq.kept fun path r hr => ⟨r, hr, List.Subset.refl _⟩)⟩
    show s₁.wires ++ _ = _
    rw [hw]
    rfl

/-- **Steps that connect**, one after the other, make one wire each and no others. -/
theorem connects {steps : List BuildStep}
    (hsteps : ∀ step ∈ steps, ∃ kind source target, step = .connect kind source target) :
    ∀ {s : Store}, Furnished k e s → e.run steps s = (e', none, s') →
      e' = e ∧ Furnished k e s' ∧ s.InputsKept s' ∧
        ∃ new, s'.wires = s.wires ++ new ∧ List.Forall₂ (e.WireOf k s') steps new := by
  induction steps with
  | nil =>
    intro s h hr
    cases hr
    exact ⟨rfl, h, .refl _, [], (List.append_nil _).symm, .nil⟩
  | cons step steps ih =>
    intro s h hr
    obtain ⟨kind, source, target, rfl⟩ := hsteps step List.mem_cons_self
    obtain ⟨e₁, s₁, ht, hrest⟩ := Emission.run_cons_ok hr
    obtain ⟨rfl, h₁, hkept₁, w, hw, hwire⟩ := h.connect ht
    obtain ⟨rfl, h', hkept, new, hnew, hall⟩ :=
      ih (fun st hs => hsteps st (List.mem_cons_of_mem _ hs)) h₁ hrest
    refine ⟨rfl, h', hkept₁.trans hkept, w :: new, ?_, .cons (hwire.kept hkept) hall⟩
    rw [hnew, hw, List.append_assoc]
    rfl

/-- The wires are those of the steps `done`. -/
structure Strung (k : String) (e : Emission) (done : List BuildStep) (s : Store) : Prop where
  furnished : Furnished k e s
  accounted : ∀ w ∈ s.wires, ∃ step ∈ done, e.WireOf k s step w
  wired : ∀ step ∈ done, ∃ w ∈ s.wires, e.WireOf k s step w

theorem exists_of_forall₂ {α β : Type} {R : α → β → Prop} {as : List α} {bs : List β}
    (h : List.Forall₂ R as bs) : ∀ b ∈ bs, ∃ a ∈ as, R a b := by
  induction h with
  | nil => exact fun b hb => absurd hb List.not_mem_nil
  | cons hab _ ih =>
    refine List.forall_mem_cons.mpr ⟨⟨_, List.mem_cons_self, hab⟩, fun b hb => ?_⟩
    obtain ⟨a, ha, hr⟩ := ih b hb
    exact ⟨a, List.mem_cons_of_mem _ ha, hr⟩

/-- A wire for each step makes the wires those of the steps. -/
theorem strung (h : Furnished k e s) {done : List BuildStep}
    (hw : List.Forall₂ (e.WireOf k s) done s.wires) : Strung k e done s where
  furnished := h
  accounted := exists_of_forall₂ hw
  wired := exists_of_forall₂ hw.flip

/-! ## 6. From the empty store -/

/-- A compound that is made in the empty store is all there is. -/
theorem createCompound_empty {parent name path : String}
    (h : createCompound parent name Store.empty = .ok path s) :
    path = childPath rootPath name ∧ s.wires = [] ∧ ∀ other, s.record? other =
      if other = path then some (compoundRecord rootPath name) else none := by
  obtain ⟨_, hc, hinsert⟩ := createCompound_ok_iff.mp h
  obtain rfl : parent = rootPath := by
    rcases hasContainer_iff.mp hc with hroot | ⟨r, hr, _⟩
    · exact hroot
    · cases hr
  have hrec := record?_insert (Store.empty.counted .createCompound) rootPath
    (compoundRecord rootPath name)
  have hpath : path = childPath rootPath name := (congrArg Prod.fst hinsert).symm
  have hstore : s = _ := (congrArg Prod.snd hinsert).symm
  refine ⟨hpath, by rw [hstore]; rfl, fun other => ?_⟩
  rw [hinsert] at hrec
  rw [hpath]
  exact hrec other

/-- The compound and its output port, in a store that was empty. -/
theorem start {parent name : String} {steps : List BuildStep} (hn : name ≠ "")
    (hr : Emission.run {} (.createCompound parent name :: .createOutputPort outputPortName :: steps)
      Store.empty = (e', none, s')) :
    ∃ e s, Furnished (childPath rootPath name) e s ∧ s.wires = [] ∧ e.inputPorts = [] ∧
      e.run steps s = (e', none, s') := by
  obtain ⟨e₁, s₁, ht₁, hr₁⟩ := Emission.run_cons_ok hr
  obtain ⟨e₂, s₂, ht₂, hr₂⟩ := Emission.run_cons_ok hr₁
  have hroot : childPath rootPath name ≠ rootPath := fun he =>
    hn (childPath_injective rootPath (he : _ = childPath rootPath ""))
  cases ht₁ with
  | createCompound call =>
    obtain ⟨rfl, hw, hrec⟩ := createCompound_empty call
    cases ht₂ with
    | createOutputPort made call =>
      obtain rfl := Option.some.inj made
      obtain ⟨_, r, hr, _, hport, hstore⟩ := createOutputPort_ok_iff.mp call
      rw [hrec, if_pos rfl] at hr
      cases hr
      have hfree : (uniqueName outputPortName 0 (compoundRecord rootPath name).outputs).1 =
          outputPortName := rfl
      rw [hfree] at hport hstore
      subst hport hstore
      have hrec' : ∀ path, ((s₁.counted .createOutputPort).addOutput (childPath rootPath name)
          outputPortName).record? path = if path = childPath rootPath name then
            some { compoundRecord rootPath name with outputs := [outputPortName] } else none := by
        intro path
        rw [addOutput, record?_updateRecord]
        show (if _ then (s₁.record? path).map _ else s₁.record? path) = _
        rw [hrec path]
        split <;> rfl
      refine ⟨_, _, ?_, ?_, rfl, hr₂⟩
      on_goal 2 => exact hw
      refine ⟨hroot, rfl, rfl, ?_, ?_, ?_, ?_⟩
      · exact ⟨_, (hrec' _).trans (if_pos rfl), rfl, rfl, List.nodup_nil, rfl⟩
      · intro path r hp hr
        rw [hrec', if_neg hp] at hr
        cases hr
      · intro id path hl
        cases hl
      · intro id other path hl
        cases hl

end Furnished

end FormulaGraph
