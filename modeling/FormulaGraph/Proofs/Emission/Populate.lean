/-
  File:      FormulaGraph/Proofs/Emission/Populate.lean
  Subject:   Making the compound of an expression, its ports and its nodes.

  The first part of a compiled plan makes the compound and then, in the order in which expressions
  are planned, an input port for each symbol and a node for everything else. `Populated` says what
  is there after the first so many expressions.

  * `planNode_ok_cases` -- what is planned for a symbol, and for everything else;
  * `Populated.planned` -- the steps of one expression succeed and keep the invariant;
  * `populate` -- so do the steps of all of them.
-/
import FormulaGraph.Proofs.Emission.Forward
import FormulaGraph.Proofs.Table.Reach

namespace FormulaGraph

open Store

/-! ## 1. What is planned for a node -/

namespace Node

/-- The name of a symbol. -/
def symbol? : Node → Option String
  | symbol name => some name
  | _ => none

/-- The kind of a node that is no symbol. -/
def kind? : Node → Option Operator
  | symbol _ => none
  | literal value => some value.kind
  | operation op _ => some op

/-- The value of a literal. -/
def value? : Node → Option Float
  | literal value => some value.toFloat
  | _ => none

/-- The value that a node of some type stores: only a constant has one. -/
def storedValue (node : Node) (type : NodeType) : Option Float :=
  if type.isConstant then node.value? else none

end Node

/-- A symbol gets a port; any other node gets the type of its kind, and a constant its value. -/
theorem planNode_ok_cases {c : Catalogue} {id : Nat} {node : Node} {n : PlannedNode}
    (h : Table.planNode c id node = .ok n) :
    (∃ name, node = .symbol name ∧ n = { expr := id, role := .input, port := some name }) ∨
      ∃ kind type, node.kind? = some kind ∧ c.resolve? kind = some type ∧ n.expr = id ∧
        n.port = none ∧ n.nodeType = some type ∧ n.value = node.storedValue type := by
  have htyped (kind : Operator) (value : Option Float) :
      Table.planTyped c id kind value = .ok n →
      ∃ type, c.resolve? kind = some type ∧ n.expr = id ∧ n.port = none ∧ n.nodeType = some type ∧
        n.value = if type.isConstant then value else none := by
    intro h
    unfold Table.planTyped at h
    split at h
    · cases h
    · rename_i type ht
      cases h
      exact ⟨type, ht, rfl, rfl, rfl, rfl⟩
  cases node with
  | symbol name =>
    cases h
    exact .inl ⟨name, rfl, rfl⟩
  | literal value =>
    obtain ⟨type, h⟩ := htyped _ _ h
    exact .inr ⟨_, type, rfl, h⟩
  | operation op args =>
    obtain ⟨type, h⟩ := htyped _ _ h
    exact .inr ⟨_, type, rfl, h⟩

theorem expr_of_planNode {c : Catalogue} {id : Nat} {node : Node} {n : PlannedNode}
    (h : Table.planNode c id node = .ok n) : n.expr = id := by
  rcases planNode_ok_cases h with ⟨name, _, rfl⟩ | ⟨kind, type, _, _, he, _⟩
  · rfl
  · exact he

theorem port_of_planNode {c : Catalogue} {id : Nat} {node : Node} {n : PlannedNode}
    (h : Table.planNode c id node = .ok n) : n.port = node.symbol? := by
  rcases planNode_ok_cases h with ⟨name, rfl, rfl⟩ | ⟨kind, type, hk, _, _, hp, _⟩
  · rfl
  · rw [hp]
    cases node with
    | symbol name => cases hk
    | literal value => rfl
    | operation op args => rfl

/-- The steps of a node that gets a type. -/
theorem PlannedNode.steps_of_type {n : PlannedNode} {type : NodeType} (hp : n.port = none)
    (ht : n.nodeType = some type) :
    n.steps =
      .createNode n.expr type :: (n.value.map (BuildStep.setLiteralValue n.expr ·)).toList := by
  unfold steps
  rw [hp, ht]

/-! ## 2. The invariant -/

/-- The names of the symbols among some nodes, in order of first occurrence. -/
def symbolsOf (nodes : List (Nat × Node)) : List String := (nodes.filterMap (·.2.symbol?)).eraseDups

/-- What the record of a node is to be. -/
def copyRecord (compound : String) (node : Node) (type : NodeType) (name : String) : Record :=
  { nodeRecord compound type with name := name, value := node.storedValue type }

/-- **The compound `k` after the expressions `done`**: it has a port for each symbol, a node for
    each other expression, and no wire yet. -/
structure Populated (c : Catalogue) (s₀ : Store) (parent k : String) (done : List (Nat × Node))
    (e : Emission) (s : Store) : Prop where
  made : Made s₀ e s
  compound : e.compound = some k
  record : ∃ name, s.record? k = some
    { compoundRecord parent name with inputs := symbolsOf done, outputs := [outputPortName] }
  outputPorts : e.outputPorts = [(outputPortName, portPath k outputPortName)]
  inputPorts : e.inputPorts = (symbolsOf done).map fun name => (name, portPath k name)
  keys : e.nodes.map Prod.fst = (done.filter fun d => d.2.kind?.isSome).map Prod.fst
  journal : e.journal = (e.nodes.map Prod.snd).reverse ++ [k]
  nodes : ∀ id node kind, (id, node) ∈ done → node.kind? = some kind →
    ∃ path type name, e.nodes.lookup id = some path ∧ c.resolve? kind = some type ∧
      s.record? path = some (copyRecord k node type name)
  wires : s.wires = s₀.wires
  driven : s.driven = s₀.driven

section

variable {c : Catalogue} {s₀ s s' : Store} {parent k : String} {done : List (Nat × Node)}
  {e e' : Emission}

theorem lookup_map_portPath (k name : String) (names : List String) :
    (names.map fun x => (x, portPath k x)).lookup name =
      if name ∈ names then some (portPath k name) else none := by
  induction names with
  | nil => rfl
  | cons x xs ih =>
    by_cases h : name = x
    · subst h
      simp
    · simp only [List.map_cons, List.lookup_cons, beq_false_of_ne h, ih, List.mem_cons, h, false_or]

theorem symbolsOf_concat_symbol (done : List (Nat × Node)) (id : Nat) (name : String) :
    symbolsOf (done ++ [(id, .symbol name)]) =
      if name ∈ symbolsOf done then symbolsOf done else symbolsOf done ++ [name] := by
  have : (done ++ [(id, Node.symbol name)]).filterMap (·.2.symbol?) =
      done.filterMap (·.2.symbol?) ++ [name] := by
    rw [List.filterMap_append]
    rfl
  rw [symbolsOf, this, eraseDups_concat]
  simp only [symbolsOf, List.mem_eraseDups]

theorem symbolsOf_concat_other (done : List (Nat × Node)) (id : Nat) {node : Node} {kind : Operator}
    (hk : node.kind? = some kind) : symbolsOf (done ++ [(id, node)]) = symbolsOf done := by
  have hs : node.symbol? = none := by
    cases node with
    | symbol name => cases hk
    | literal value => rfl
    | operation op args => rfl
  have : (done ++ [(id, node)]).filterMap (·.2.symbol?) = done.filterMap (·.2.symbol?) := by
    simp [hs]
  rw [symbolsOf, this, symbolsOf]

/-- The path of the compound is in use. -/
theorem Populated.isSome_record? (h : Populated c s₀ parent k done e s) : (s.record? k).isSome := by
  obtain ⟨name, hr⟩ := h.record
  rw [hr]
  rfl

theorem Populated.lookup_eq_none (h : Populated c s₀ parent k done e s) {id : Nat}
    (hid : id ∉ done.map Prod.fst) : e.nodes.lookup id = none := by
  rw [← Option.not_isSome_iff_eq_none, Assoc.isSome_lookup_iff, h.keys]
  intro hm
  obtain ⟨d, hd, rfl⟩ := List.mem_map.mp hm
  exact hid (List.mem_map_of_mem (List.mem_filter.mp hd).1)

/-! ## 3. One expression more -/

/-- The invariant once the port of a symbol is there. Nothing but the compound has changed. -/
theorem Populated.concatSymbol (h : Populated c s₀ parent k done e s) {id : Nat} {name : String}
    {ports : List (String × String)} (hmade : Made s₀ { e with inputPorts := ports } s')
    (hports : ports = (symbolsOf (done ++ [(id, .symbol name)])).map fun x => (x, portPath k x))
    (hrec : ∃ own, s'.record? k = some
      { compoundRecord parent own with
        inputs := symbolsOf (done ++ [(id, .symbol name)]), outputs := [outputPortName] })
    (hothers : ∀ path, path ≠ k → s'.record? path = s.record? path)
    (hw : s'.wires = s.wires) (hd : s'.driven = s.driven) :
    Populated c s₀ parent k (done ++ [(id, .symbol name)]) { e with inputPorts := ports } s' := by
  refine ⟨hmade, h.compound, hrec, h.outputPorts, hports, ?_, h.journal, ?_,
    hw.trans h.wires, hd.trans h.driven⟩
  · rw [List.filter_append, List.map_append]
    exact h.keys.trans (List.append_nil _).symm
  · intro other node kind hm hk
    rcases List.mem_append.mp hm with hm | hm
    · obtain ⟨path, type, nodeName, hl, hres, hnode⟩ := h.nodes other node kind hm hk
      refine ⟨path, type, nodeName, hl, hres, ?_⟩
      have hne : path ≠ k := by
        rintro rfl
        obtain ⟨_, hr⟩ := h.record
        rw [hr] at hnode
        cases hnode
      exact (hothers path hne).trans hnode
    · -- the symbol itself has no node
      cases List.mem_singleton.mp hm
      cases hk

/-- The port of a symbol is made, or is there already. -/
theorem Populated.symbol (h : Populated c s₀ parent k done e s) {id : Nat} {name : String}
    (ha : s.Allows [.createInputPort name true]) :
    ∃ e' s', e.run [.createInputPort name true] s = (e', none, s') ∧
      Populated c s₀ parent k (done ++ [(id, .symbol name)]) e' s' := by
  obtain ⟨own, hr⟩ := h.record
  have hcall := ha.refuses
  have hnames : BuildStep.Names IsPlain (.createInputPort name true) := trivial
  by_cases hm : name ∈ symbolsOf done
  · -- the port is taken as it is
    have ht : e.Taken s (.createInputPort name true) (e.withInput name (portPath k name))
        (s.counted .createInputPort) :=
      .createInputPort h.compound
        (createInputPort_ok_iff.mpr ⟨hcall, _, hr, rfl, .inl ⟨by simpa using hm, rfl, rfl⟩⟩)
    have he : e.withInput name (portPath k name) = { e with inputPorts := e.inputPorts } := by
      rw [Emission.withInput, h.inputPorts, lookup_map_portPath, if_pos hm]
      exact if_pos rfl
    have hsym : symbolsOf (done ++ [(id, Node.symbol name)]) = symbolsOf done := by
      rw [symbolsOf_concat_symbol, if_pos hm]
    rw [he] at ht
    refine ⟨_, _, Emission.run_cons_of_taken ht,
      h.concatSymbol (h.made.taken hnames ht) ?_ ⟨own, ?_⟩ (fun _ _ => rfl) rfl rfl⟩
    · rw [hsym]
      exact h.inputPorts
    · rw [hsym]
      exact hr
  · have hfree : (uniqueName name 0 (symbolsOf done)).1 = name := by
      rw [uniqueName_of_notMem hm]
    have ht : e.Taken s (.createInputPort name true) (e.withInput name (portPath k name))
        ((s.counted .createInputPort).addInput k name) := by
      refine .createInputPort h.compound
        (createInputPort_ok_iff.mpr ⟨hcall, _, hr, rfl, .inr ⟨by simpa using hm, ?_, ?_⟩⟩)
      · rw [hfree]
      · rw [hfree]
    have he : e.withInput name (portPath k name) =
        { e with inputPorts := e.inputPorts ++ [(name, portPath k name)] } := by
      rw [Emission.withInput, h.inputPorts, lookup_map_portPath, if_neg hm]
      rfl
    have hsym : symbolsOf (done ++ [(id, Node.symbol name)]) = symbolsOf done ++ [name] := by
      rw [symbolsOf_concat_symbol, if_neg hm]
    rw [he] at ht
    refine ⟨_, _, Emission.run_cons_of_taken ht,
      h.concatSymbol (h.made.taken hnames ht) ?_ ⟨own, ?_⟩ (fun path hne => ?_) rfl rfl⟩
    · rw [hsym, List.map_append, ← h.inputPorts]
      rfl
    · rw [addInput, record?_updateRecord, if_pos rfl]
      show (s.record? k).map _ = _
      rw [hr, hsym]
      rfl
    · rw [addInput, record?_updateRecord, if_neg hne]
      rfl

/-- The node of an expression is made; it has no value yet. -/
theorem Populated.node (h : Populated c s₀ parent k done e s) {id : Nat} {type : NodeType}
    (hid : id ∉ done.map Prod.fst) (hn : IsPlain type.shortName)
    (hcall : s.refuses .createNode = false) :
    ∃ path name s', e.Taken s (.createNode id type)
        { e with journal := path :: e.journal, nodes := e.nodes ++ [(id, path)] } s' ∧
      s.record? path = none ∧ s'.record? path = some { nodeRecord k type with name := name } ∧
      (∀ other r, s.record? other = some r → s'.record? other = some r) ∧
      s'.wires = s.wires ∧ s'.driven = s.driven := by
  obtain ⟨own, hr⟩ := h.record
  have hc : (s.counted .createNode).hasContainer k = true :=
    hasContainer_iff.mpr (.inr ⟨_, hr, rfl⟩)
  have hs : Sound (s.counted .createNode) := h.made.sound.counted _
  have hseg : IsSegment (nodeRecord k type).name := hn.isSegment
  have ht : e.Taken s (.createNode id type)
      { e with
        journal := (s.counted .createNode).pathFor k type.shortName :: e.journal
        nodes := Assoc.put id ((s.counted .createNode).pathFor k type.shortName) e.nodes }
      ((s.counted .createNode).insert k (nodeRecord k type)).2 :=
    .createNode h.compound (createNode_ok_iff.mpr ⟨hcall, ⟨_, hr, rfl⟩, rfl⟩)
  rw [Assoc.put_of_lookup_eq_none (h.lookup_eq_none hid)] at ht
  refine ⟨_, (s.counted .createNode).nameFor k type.shortName, _, ht, hs.record?_pathFor hc hseg,
    ?_, fun other r hr => hs.record?_insert_of_some hc hseg hr, rfl, rfl⟩
  exact (record?_insert _ _ _ _).trans (if_pos rfl)

/-- The invariant once a node has been made and has its value, if it is to have one. -/
theorem Populated.concat (h : Populated c s₀ parent k done e s) {id : Nat} {node : Node}
    {kind : Operator} {type : NodeType} {path : String} (name : String)
    (hid : id ∉ done.map Prod.fst)
    (hk : node.kind? = some kind) (hres : c.resolve? kind = some type)
    (he : e' = { e with journal := path :: e.journal, nodes := e.nodes ++ [(id, path)] })
    (hmade : Made s₀ e' s') (hrec : s'.record? path = some (copyRecord k node type name))
    (hold : ∀ other r, s.record? other = some r → s'.record? other = some r)
    (hw : s'.wires = s.wires) (hd : s'.driven = s.driven) :
    Populated c s₀ parent k (done ++ [(id, node)]) e' s' := by
  subst he
  obtain ⟨own, hr⟩ := h.record
  have hsym := symbolsOf_concat_other done id hk
  refine ⟨hmade, h.compound, ⟨own, ?_⟩, h.outputPorts, ?_, ?_, ?_, ?_, hw.trans h.wires,
    hd.trans h.driven⟩
  · rw [hsym]
    exact hold k _ hr
  · rw [hsym]
    exact h.inputPorts
  · simp [h.keys, hk]
  · simp [h.journal]
  · intro other node' kind' hm hk'
    rcases List.mem_append.mp hm with hm | hm
    · obtain ⟨path', type', name', hl, hres', hrec'⟩ := h.nodes other node' kind' hm hk'
      refine ⟨path', type', name', ?_, hres', hold _ _ hrec'⟩
      show (e.nodes ++ [(id, path)]).lookup other = some path'
      rw [List.lookup_append, hl]
      rfl
    · cases List.mem_singleton.mp hm
      rw [hk] at hk'
      cases hk'
      refine ⟨path, type, name, ?_, hres, hrec⟩
      show (e.nodes ++ [(id, path)]).lookup id = some path
      rw [List.lookup_append, h.lookup_eq_none hid]
      simp

/-- **The steps of one expression succeed.** -/
theorem Populated.planned (h : Populated c s₀ parent k done e s) {id : Nat} {node : Node}
    {n : PlannedNode} (hid : id ∉ done.map Prod.fst) (hp : Table.planNode c id node = .ok n)
    (hn : ∀ step ∈ n.steps, step.Names IsPlain) (ha : s.Allows n.steps) :
    ∃ e' s', e.run n.steps s = (e', none, s') ∧
      Populated c s₀ parent k (done ++ [(id, node)]) e' s' := by
  rcases planNode_ok_cases hp with ⟨name, rfl, rfl⟩ |
    ⟨kind, type, hk, hres, hexpr, hport, htype, hvalue⟩
  · exact h.symbol ha
  · rw [PlannedNode.steps_of_type hport htype, hexpr] at hn ha ⊢
    have hname : BuildStep.Names IsPlain (.createNode id type) := hn _ List.mem_cons_self
    obtain ⟨path, name, s₁, ht, hfresh, hrec, hold, hw, hd⟩ := h.node hid hname ha.refuses
    have hmade := h.made.taken hname ht
    have hrest := ha.taken ht
    rw [Emission.run_cons_of_taken ht]
    rw [hvalue] at hrest ⊢
    cases hv : node.storedValue type with
    | none =>
      refine ⟨_, s₁, rfl, h.concat name hid hk hres rfl hmade ?_ hold hw hd⟩
      rw [hrec, copyRecord, hv]
      rfl
    | some value =>
      rw [hv] at hrest
      -- only a constant stores a value, so the store accepts it
      have hconst : type = NodeType.constant := by
        unfold Node.storedValue at hv
        split at hv
        · rename_i hc
          simpa [NodeType.isConstant] using hc
        · cases hv
      have hset : Emission.Taken
          { e with journal := path :: e.journal, nodes := e.nodes ++ [(id, path)] } s₁
          (.setLiteralValue id value) _ ((s₁.counted .setLiteralValue).setValue path value) :=
        .setLiteralValue (by
            show (e.nodes ++ [(id, path)]).lookup id = some path
            rw [List.lookup_append, h.lookup_eq_none hid]
            simp)
          (setLiteralValue_ok_iff.mpr ⟨hrest.refuses, _, hrec, by rw [hconst]; rfl, rfl⟩)
      have hnames : BuildStep.Names IsPlain (.setLiteralValue id value) := trivial
      refine ⟨_, _, Emission.run_cons_of_taken hset, h.concat name hid hk hres rfl
        (hmade.taken hnames hset) ?_ ?_ hw hd⟩
      · rw [setValue, record?_updateRecord, if_pos rfl]
        show (s₁.record? path).map _ = _
        rw [hrec, copyRecord, hv]
        rfl
      · intro other r hr
        have hne : other ≠ path := by
          rintro rfl
          rw [hfresh] at hr
          cases hr
        rw [setValue, record?_updateRecord, if_neg hne]
        exact hold other r hr

/-! ## 4. The compound itself, and all expressions -/

/-- The compound is made; it has no ports yet. -/
theorem compound_taken {name : String} (hc : s.hasContainer parent = true)
    (hcall : s.refuses .createCompound = false) :
    ∃ own s', Emission.Taken {} s (.createCompound parent name)
        { ({} : Emission) with
          journal := [s.pathFor parent name]
          compound := some (s.pathFor parent name) } s' ∧
      s'.record? (s.pathFor parent name) = some (compoundRecord parent own) ∧
      s'.wires = s.wires ∧ s'.driven = s.driven := by
  refine ⟨s.nameFor parent name, ((s.counted .createCompound).insert parent
    (compoundRecord parent name)).2, .createCompound (createCompound_ok_iff.mpr ⟨hcall, hc, rfl⟩),
    ?_, rfl, rfl⟩
  exact (record?_insert _ _ _ _).trans (if_pos rfl)

/-- The two steps that make the compound and its output port. -/
theorem populated_start {name : String} (hs : s.Reachable IsPlain) (hn : IsPlain name)
    (hc : s.hasContainer parent = true)
    (ha : s.Allows [.createCompound parent name, .createOutputPort outputPortName]) :
    ∃ e' s', Emission.run {} [.createCompound parent name, .createOutputPort outputPortName] s
        = (e', none, s') ∧
      Populated c s parent (s.pathFor parent name) [] e' s' := by
  obtain ⟨own, s₁, ht, hrec, hw, hd⟩ := compound_taken hc ha.refuses
  have hname : BuildStep.Names IsPlain (.createCompound parent name) := hn
  have hnames : BuildStep.Names IsPlain (.createOutputPort outputPortName) := trivial
  have hcall := (ha.taken ht).refuses
  have ho : createOutputPort (s.pathFor parent name) outputPortName s₁ =
      .ok (portPath (s.pathFor parent name) outputPortName)
        ((s₁.counted .createOutputPort).addOutput (s.pathFor parent name) outputPortName) :=
    createOutputPort_ok_iff.mpr ⟨hcall, _, hrec, rfl, rfl, rfl⟩
  have ht₂ := Emission.Taken.createOutputPort (e := { ({} : Emission) with
    journal := [s.pathFor parent name], compound := some (s.pathFor parent name) }) rfl ho
  refine ⟨_, _, (Emission.run_cons_of_taken ht).trans (Emission.run_cons_of_taken ht₂),
    ((Made.start hs).taken hname ht).taken hnames ht₂, rfl, ⟨own, ?_⟩, rfl, rfl, rfl, rfl, ?_,
    hw, hd⟩
  · rw [addOutput, record?_updateRecord, if_pos rfl]
    exact (congrArg (Option.map _) hrec).trans rfl
  · intro _ _ _ hm
    cases hm

/-- A list is planned member by member. -/
theorem forall₂_of_mapM_ok {ε α β : Type} {f : α → Except ε β} :
    ∀ {as : List α} {bs : List β}, as.mapM f = .ok bs → List.Forall₂ (fun a b => f a = .ok b) as bs
  | [], bs, h => by
      rw [List.mapM_nil] at h
      cases h
      exact .nil
  | a :: as, bs, h => by
      rw [List.mapM_cons] at h
      obtain ⟨b, hb, h₁⟩ := bind_ok_iff.mp h
      obtain ⟨bs', hbs, h₂⟩ := bind_ok_iff.mp h₁
      cases h₂
      exact .cons hb (forall₂_of_mapM_ok hbs)

/-- **The compound, its ports and its nodes are made.** -/
theorem populate {t : Table} {root : Nat} {name : String} {nodes : List PlannedNode}
    (hs : s.Reachable IsPlain) (hn : IsPlain name) (hc : s.hasContainer parent = true)
    (hplan : List.Forall₂ (fun d n => Table.planNode c d.1 d.2 = .ok n) (t.creations root) nodes)
    (hnames : ∀ n ∈ nodes, ∀ step ∈ n.steps, step.Names IsPlain)
    (ha : s.Allows ([.createCompound parent name, .createOutputPort outputPortName] ++
      nodes.flatMap PlannedNode.steps)) :
    ∃ e' s', Emission.run {} ([.createCompound parent name, .createOutputPort outputPortName] ++
        nodes.flatMap PlannedNode.steps) s = (e', none, s') ∧
      Populated c s parent (s.pathFor parent name) (t.creations root) e' s' := by
  obtain ⟨e₁, s₁, hr₁, hstart⟩ := populated_start hs hn hc ha.left
  have ha₁ := Emission.allows_of_run ha hr₁
  -- the loop runs over the expressions together with what is planned for them
  have hzip : nodes.flatMap PlannedNode.steps =
      ((t.creations root).zip nodes).flatMap fun d => d.2.steps := by
    rw [← List.flatMap_map Prod.snd, List.map_snd_zip (Nat.le_of_eq hplan.length_eq.symm)]
  have hfst : ((t.creations root).zip nodes).map Prod.fst = t.creations root :=
    List.map_fst_zip (Nat.le_of_eq hplan.length_eq)
  have hnodup := t.nodup_creations root
  rw [hzip] at ha₁
  obtain ⟨e₂, s₂, hr₂, hdone⟩ := Emission.run_loop ((t.creations root).zip nodes)
    (fun d => d.2.steps)
    (fun done e s' => Populated c s parent (s.pathFor parent name) (done.map Prod.fst) e s')
    (fun done d rest e s' hall hi ha => by
      have hd : d ∈ (t.creations root).zip nodes := by
        rw [hall]
        exact List.mem_append_right _ List.mem_cons_self
      have hid : d.1.1 ∉ (done.map Prod.fst).map Prod.fst := by
        rw [← hfst, hall] at hnodup
        simp only [List.map_append, List.map_cons, List.nodup_append, List.mem_cons] at hnodup
        exact fun hm => hnodup.2.2 _ hm _ (.inl rfl) rfl
      obtain ⟨e', s', hr, hp⟩ := hi.planned hid ((List.forall₂_iff_zip.mp hplan).2 hd)
        (hnames d.2 (List.of_mem_zip hd).2) ha
      exact ⟨e', s', hr, by rwa [List.map_append]⟩)
    _ [] e₁ s₁ rfl hstart ha₁
  rw [hfst] at hdone
  refine ⟨e₂, s₂, ?_, hdone⟩
  rw [Emission.run_append hr₁, hzip]
  exact hr₂

end

end FormulaGraph
