/-
  File:      FormulaGraph/Proofs/Emission/Copy.lean
  Subject:   Compiling an expression and building its compound copies the expression.

  A table holds an expression as nodes with shared arguments. The compound that is built for it has
  one node for each distinct expression that is no symbol, an input port for each symbol, and at
  every operation one wire for each argument, in the order of the arguments.

  * `Compound.Copies` -- what it means that a compound is a copy;
  * `Table.compile_emit_copies` -- building a compiled plan succeeds and gives a copy.
-/
import FormulaGraph.Proofs.Emission.Wiring

namespace FormulaGraph

open Store

/-! ## 1. Copies -/

/-- **The compound `k`, which an emission from `s` to `s'` has made, is a copy of what is below
    `root`.** The plan `p` was compiled with the catalogue `c`. -/
structure Compound.Copies (k : Compound) (t : Table) (root : Nat) (c : Catalogue) (p : Plan)
    (s s' : Store) : Prop where
  /-- Every expression below the root that is no symbol has one node. -/
  ids : ∀ id, id ∈ k.nodes.map Prod.fst ↔ t.Below root id ∧ t.symbolName? id = none
  ids_nodup : (k.nodes.map Prod.fst).Nodup
  /-- The nodes are the children of the compound, and no two expressions share one. -/
  children : s'.children k.path = k.nodes.map Prod.snd
  paths_nodup : (k.nodes.map Prod.snd).Nodup
  /-- A node has the type of its kind; a literal of the constant type has its value. -/
  typed : ∀ id path, (id, path) ∈ k.nodes → ∃ node kind type r, t.node? id = some node ∧
    node.kind? = some kind ∧ c.resolve? kind = some type ∧ s'.record? path = some r ∧
    r.nodeType = some type ∧ r.value = node.storedValue type
  /-- The compound is new, and its input ports are those of the plan. -/
  compound : s.record? k.path = none ∧ ∃ r, s'.record? k.path = some r ∧ r.isCompound = true ∧
    r.container = p.parent ∧ r.inputs = p.inputPorts ∧ r.outputs = [outputPortName]
  inputPorts : k.inputPorts = p.inputPorts.map fun name => (name, portPath k.path name)
  symbols : ∀ name, name ∈ p.inputPorts ↔ ∃ id, t.Below root id ∧ t.symbolName? id = some name
  /-- The first ports of a node have one wire each, from the arguments in their order; the other
      ports have none. -/
  arguments : ∀ id path, (id, path) ∈ k.nodes → ∃ r, s'.record? path = some r ∧
    r.inputs.Nodup ∧ (t.args id).length ≤ r.inputs.length ∧
    (∀ (i : Nat) port, r.inputs[i]? = some port →
      s'.isDriven (portPath path port) = decide (i < (t.args id).length)) ∧
    (∀ (i : Nat) port arg, r.inputs[i]? = some port → (t.args id)[i]? = some arg →
      ∃ source, t.sourcePort? k.inputPorts k.nodes arg = some source ∧
        s'.wiresTo (portPath path port) = [⟨source, portPath path port, t.useKind arg⟩]) ∧
    ∀ (i : Nat) port, r.inputs[i]? = some port → (t.args id).length ≤ i →
      s'.wiresTo (portPath path port) = []
  /-- The output port has one wire, from the root. -/
  output : k.outputPort = portPath k.path outputPortName ∧
    ∃ source, t.sourcePort? k.inputPorts k.nodes root = some source ∧
      s'.wiresTo k.outputPort = [⟨source, k.outputPort, t.outKind root⟩]
  /-- There are no other new wires. -/
  accounted : ∀ w ∈ s'.wires, w ∈ s.wires ∨ w.target = k.outputPort ∨
    ∃ id path r, ∃ (i : Nat) (port : String), (id, path) ∈ k.nodes ∧ s'.record? path = some r ∧
      i < (t.args id).length ∧ r.inputs[i]? = some port ∧ w.target = portPath path port
  /-- Nothing else has changed. -/
  frame : StillThere s s'
  order : s'.order = s.order ++ k.path :: k.nodes.map Prod.snd

/-! ## 2. Children -/

/-- The paths of the nodes in a container, among some paths. -/
def Store.childrenAmong (s : Store) (container : String) (paths : List String) : List String :=
  ((paths.filterMap s.record?).filter (·.container == container)).map fun r =>
    childPath container r.name

theorem childrenAmong_append (s : Store) (container : String) (a b : List String) :
    s.childrenAmong container (a ++ b) =
      s.childrenAmong container a ++ s.childrenAmong container b := by
  simp [childrenAmong]

theorem childrenAmong_eq_nil {s : Store} {container : String} {paths : List String}
    (h : ∀ path ∈ paths, ∀ r, s.record? path = some r → r.container ≠ container) :
    s.childrenAmong container paths = [] := by
  rw [childrenAmong, List.map_eq_nil_iff, List.filter_eq_nil_iff]
  intro r hr
  obtain ⟨path, hp, hr⟩ := List.mem_filterMap.mp hr
  simpa using h path hp r hr

theorem childrenAmong_eq_self {s : Store} (hs : Sound s) {container : String} :
    ∀ {paths : List String},
      (∀ path ∈ paths, ∃ r, s.record? path = some r ∧ r.container = container) →
      s.childrenAmong container paths = paths
  | [], _ => rfl
  | path :: paths, h => by
      obtain ⟨r, hr, hc⟩ := h path List.mem_cons_self
      have ih := childrenAmong_eq_self hs fun p hp => h p (List.mem_cons_of_mem _ hp)
      have hp : childPath container r.name = path := by
        rw [(hs.placed path r hr).1, hc]
      unfold childrenAmong at ih ⊢
      rw [List.filterMap_cons_some hr, List.filter_cons_of_pos (by simp [hc]), List.map_cons, ih,
        hp]

/-- What was found before is found unchanged. -/
theorem StillThere.record? {s s' : Store} (h : StillThere s s') {path : String} {r : Record}
    (hr : s.record? path = some r) : s'.record? path = some r := by
  obtain ⟨new, he⟩ := h.records
  rw [Store.record?, ← he, List.lookup_append, ← Store.record?, hr]
  rfl

/-- **The children of a new compound are the nodes that were put into it.** -/
theorem children_of_added {s₀ s : Store} {k : String} {paths : List String} (hs₀ : Sound s₀)
    (hs : Sound s) (hadd : Added s₀ (paths.reverse ++ [k]) s)
    (hk : ∀ r, s.record? k = some r → s₀.hasContainer r.container = true)
    (hp : ∀ path ∈ paths, ∃ r, s.record? path = some r ∧ r.container = k) :
    s.children k = paths := by
  have hkmem : k ∈ paths.reverse ++ [k] := List.mem_append_right _ List.mem_cons_self
  have hfresh := hadd.record?_eq_none hs hkmem
  have hroot := hs.path_ne_root (hadd.isSome_record? hkmem)
  -- an older container is not the new compound
  have hne : ∀ container, s₀.hasContainer container = true → container ≠ k := by
    rintro container hc rfl
    rcases hasContainer_iff.mp hc with hr | ⟨r, hr, _⟩
    · exact hroot hr
    · rw [hfresh] at hr
      cases hr
  have horder : s.order = s₀.order ++ ([k] ++ paths) := by
    rw [hadd.order_eq hs₀ hs]
    simp
  show s.childrenAmong k s.order = paths
  rw [horder, childrenAmong_append, childrenAmong_append, childrenAmong_eq_self hs hp,
    childrenAmong_eq_nil, childrenAmong_eq_nil, List.nil_append, List.nil_append]
  · intro path hpath r hr
    rw [List.mem_singleton.mp hpath] at hr
    exact hne _ (hk r hr)
  · intro path hpath r hr
    obtain ⟨r₀, hr₀⟩ := Option.isSome_iff_exists.mp (hs₀.mem_order_iff.mp hpath)
    rw [(hadd.stillThere hs₀ hs).record? hr₀] at hr
    cases hr
    exact hne _ (hs₀.placed path _ hr₀).2.2

/-! ## 3. Compiled plans -/

/-- A plan that was compiled: what was planned for each expression, and the steps that follow. -/
theorem Table.compile_ok {t : Table} {root : Nat} {c : Catalogue} {o : CompoundOptions} {p : Plan}
    (h : t.compile root c o = .ok p) :
    ∃ nodes, List.Forall₂ (fun d n => planNode c d.1 d.2 = .ok n) (t.creations root) nodes ∧
      p = { compoundName := o.name, parent := o.parent, outputPort := outputPortName, root := root,
            steps := .createCompound o.parent o.name :: .createOutputPort outputPortName ::
              (nodes.flatMap PlannedNode.steps ++ t.wireSteps root),
            nodes := nodes, links := t.linksOf root } := by
  unfold compile at h
  split at h
  · cases h
  · obtain ⟨nodes, hn, h⟩ := bind_ok_iff.mp h
    cases h
    exact ⟨nodes, forall₂_of_mapM_ok hn, rfl⟩

/-- The ports of a compiled plan are the symbols, in the order in which they are planned. -/
theorem filterMap_port {c : Catalogue} {all : List (Nat × Node)} {nodes : List PlannedNode}
    (h : List.Forall₂ (fun d n => Table.planNode c d.1 d.2 = .ok n) all nodes) :
    nodes.filterMap (·.port) = all.filterMap (·.2.symbol?) := by
  induction h with
  | nil => rfl
  | @cons d n all nodes hd _ ih =>
    rw [List.filterMap_cons, List.filterMap_cons, ← port_of_planNode hd, ih]

theorem getElem?_portsAfter {n b i : Nat} {port : String} :
    (portsAfter n b)[i]? = some port ↔ i < max n b ∧ port = addedInput i := by
  rw [portsAfter, List.getElem?_map, Option.map_eq_some_iff]
  constructor
  · rintro ⟨j, hj, rfl⟩
    obtain ⟨hi, rfl⟩ := List.getElem?_eq_some_iff.mp hj
    rw [List.getElem_range]
    exact ⟨by simpa using hi, rfl⟩
  · rintro ⟨hi, rfl⟩
    exact ⟨i, by rw [List.getElem?_range hi], rfl⟩

theorem nodup_portsAfter (n b : Nat) : (portsAfter n b).Nodup :=
  List.nodup_range.map addedInput_injective

section

variable {t : Table} {root : Nat} {c : Catalogue} {s₀ sC s : Store} {parent k : String}
  {e : Emission} {p : Plan}

/-- The nodes of the emission are those of the expressions below the root that are no symbols. -/
theorem Populated.mem_keys_iff (h : Populated c s₀ parent k (t.creations root) e sC)
    (ht : t.Ordered) (hr : root < t.size) {id : Nat} :
    id ∈ e.nodes.map Prod.fst ↔ t.Below root id ∧ t.symbolName? id = none := by
  constructor
  · intro hm
    rw [h.keys] at hm
    obtain ⟨⟨_, node⟩, hd, rfl⟩ := List.mem_map.mp hm
    obtain ⟨hd, hk⟩ := List.mem_filter.mp hd
    obtain ⟨hb, hn⟩ := (Table.mem_creations_iff ht).mp hd
    refine ⟨hb, ?_⟩
    rw [Table.symbolName?, hn]
    cases node with
    | symbol name => cases hk
    | literal value => rfl
    | operation op args => rfl
  · rintro ⟨hb, hs⟩
    obtain ⟨path, hl⟩ := h.lookup_of_below ht hr hb hs
    exact List.mem_map_of_mem (Assoc.mem_of_lookup hl)

theorem Populated.nodup_keys (h : Populated c s₀ parent k (t.creations root) e sC) :
    (e.nodes.map Prod.fst).Nodup := by
  rw [h.keys]
  exact (t.nodup_creations root).sublist (List.filter_sublist.map _)

theorem Populated.lookup_of_mem (h : Populated c s₀ parent k (t.creations root) e sC) {id : Nat}
    {path : String} (hm : (id, path) ∈ e.nodes) : e.nodes.lookup id = some path :=
  Assoc.lookup_of_mem h.nodup_keys hm

/-- Wires change nothing in the record of a node but its ports. -/
theorem Wired.record_of_mem {used : List (Nat × Nat)} (hw : Wired t root k s₀ sC e used s)
    (h : Populated c s₀ parent k (t.creations root) e sC) {id : Nat} {path : String}
    (hm : (id, path) ∈ e.nodes) : ∃ node kind type name inputs, (id, node) ∈ t.creations root ∧
      node.kind? = some kind ∧ c.resolve? kind = some type ∧
      s.record? path = some { copyRecord k node type name with inputs := inputs } := by
  obtain ⟨node, kind, type, name, hd, hk, hres, hrC⟩ := h.record_of_lookup (h.lookup_of_mem hm)
  obtain ⟨r, hrC', hrs⟩ := hw.nodes id path (h.lookup_of_mem hm)
  rw [hrC] at hrC'
  cases hrC'
  exact ⟨node, kind, type, name, _, hd, hk, hres, hrs⟩

/-- The children of the compound are the nodes that were made for it. -/
theorem Wired.children {used : List (Nat × Nat)} (hw : Wired t root k s₀ sC e used s)
    (h : Populated c s₀ parent k (t.creations root) e sC) (hs₀ : Sound s₀)
    (hparent : s₀.hasContainer parent = true) : s.children k = e.nodes.map Prod.snd := by
  refine children_of_added hs₀ hw.made.sound (h.journal ▸ hw.made.added) ?_ ?_
  · intro r hrk
    obtain ⟨own, hrec⟩ := h.record
    rw [hw.record, hrec] at hrk
    cases hrk
    exact hparent
  · intro path hpath
    obtain ⟨⟨id, _⟩, hm, rfl⟩ := List.mem_map.mp hpath
    obtain ⟨_, _, _, _, _, _, _, _, hrs⟩ := hw.record_of_mem h hm
    exact ⟨_, hrs, rfl⟩

/-- **A compound with its nodes and its wires is a copy.** -/
theorem Wired.copies (hw : Wired t root k s₀ sC e (t.uses root) s)
    (h : Populated c s₀ parent k (t.creations root) e sC) (hs₀ : Sound s₀) (ht : t.Ordered)
    (hr : root < t.size) (hparent : s₀.hasContainer parent = true) (hp : p.parent = parent)
    (hports : p.inputPorts = symbolsOf (t.creations root)) :
    Compound.Copies ⟨k, portPath k outputPortName, e.inputPorts, e.nodes⟩ t root c p s₀ s := by
  have hsound := hw.made.sound
  have hadd := hw.made.added
  have hargs : ∀ {id path}, (id, path) ∈ e.nodes →
      Table.argsUsed (t.uses root) id = t.args id := fun {id path} hm =>
    Table.argsUsed_uses ht ((h.mem_keys_iff ht hr).mp (List.mem_map_of_mem hm)).1
  refine
    { ids := fun id => h.mem_keys_iff ht hr, ids_nodup := h.nodup_keys,
      children := hw.children h hs₀ hparent, paths_nodup := ?_, typed := ?_, compound := ?_,
      inputPorts := ?_, symbols := ?_, arguments := ?_, output := ⟨rfl, hw.output⟩,
      accounted := ?_, frame := hadd.stillThere hs₀ hsound, order := ?_ }
  · have hjournal := h.nodup_journal hs₀
    rw [h.journal, List.nodup_append, List.nodup_reverse] at hjournal
    exact hjournal.1
  · intro id path hm
    obtain ⟨node, kind, type, name, inputs, hd, hk, hres, hrs⟩ := hw.record_of_mem h hm
    exact ⟨node, kind, type, _, ((Table.mem_creations_iff ht).mp hd).2, hk, hres, hrs, rfl, rfl⟩
  · obtain ⟨own, hrec⟩ := h.record
    exact ⟨hadd.record?_eq_none hsound (hw.made.compound k h.compound), _,
      hw.record.trans hrec, rfl, hp.symm, hports.symm, rfl⟩
  · rw [hports]
    exact h.inputPorts
  · intro name
    rw [hports]
    exact mem_symbolsOf_creations ht
  · -- a port is known by its number, so what `Wired` says of numbers holds of ports
    intro id path hm
    have hl := h.lookup_of_mem hm
    obtain ⟨r, hrC, hrs⟩ := hw.nodes id path hl
    rw [hargs hm] at hrs
    refine ⟨_, hrs, nodup_portsAfter _ _, ?_, ?_, ?_, ?_⟩
    · rw [portsAfter, List.length_map, List.length_range]
      exact Nat.le_max_left _ _
    · intro i port hi
      obtain ⟨_, rfl⟩ := getElem?_portsAfter.mp hi
      rw [hw.driven id path hl, hargs hm]
    · intro i port arg hi ha
      obtain ⟨_, rfl⟩ := getElem?_portsAfter.mp hi
      exact hw.wires id path hl i arg (by rwa [hargs hm])
    · intro i port hi hle
      obtain ⟨_, rfl⟩ := getElem?_portsAfter.mp hi
      exact hw.free id path hl i (by rwa [hargs hm])
  · intro w hwm
    rcases hw.accounted w hwm with hold | hout | ⟨id, path, j, hl, hj, he⟩
    · exact .inl hold
    · exact .inr (.inl hout)
    · have hm := Assoc.mem_of_lookup hl
      obtain ⟨r, hrC, hrs⟩ := hw.nodes id path hl
      rw [hargs hm] at hj
      refine .inr (.inr ⟨id, path, _, j, addedInput j, hm, hrs, hj, ?_, he⟩)
      rw [hargs hm]
      exact getElem?_portsAfter.mpr ⟨Nat.lt_of_lt_of_le hj (Nat.le_max_left _ _), rfl⟩
  · rw [hadd.order_eq hs₀ hsound, h.journal]
    simp

/-! ## 4. Compiling and building -/

/-- **Building a compiled plan succeeds and gives a copy of the expression.** The table was built by
    pushing and interning nodes, the store by calls; the names of compounds and nodes, now and
    before, are plain; the parent is there, and no call of the plan is told to fail. -/
theorem Table.compile_emit_copies {o : CompoundOptions} (ht : t.Built) (hr : root < t.size)
    (hc : t.compile root c o = .ok p) (hs : s.Reachable IsPlain)
    (hparent : s.hasContainer o.parent = true) (hnames : p.Names IsPlain)
    (hallow : s.Allows p.steps) :
    ∃ k s', p.emit s = .ok k s' ∧ k.Copies t root c p s s' := by
  have hord := ht.ordered
  obtain ⟨nodes, hplan, rfl⟩ := compile_ok hc
  have hsteps : ∀ n ∈ nodes, ∀ step ∈ n.steps, step.Names IsPlain := fun n hn step hst =>
    hnames step (List.mem_cons_of_mem _ (List.mem_cons_of_mem _
      (List.mem_append_left _ (List.mem_flatMap.mpr ⟨n, hn, hst⟩))))
  have hname : IsPlain o.name := hnames (.createCompound o.parent o.name) List.mem_cons_self
  have hallow : s.Allows (([.createCompound o.parent o.name, .createOutputPort outputPortName] ++
      nodes.flatMap PlannedNode.steps) ++ t.wireSteps root) := by
    rw [List.append_assoc]
    exact hallow
  obtain ⟨e, sC, hrun, hpop⟩ := populate hs hname hparent hplan hsteps hallow.left
  obtain ⟨s', hwire, hwired⟩ := wire hpop hs.isSound hord hr (Emission.allows_of_run hallow hrun)
  have hall := (Emission.run_append (b := t.wireSteps root) hrun).trans hwire
  rw [List.append_assoc] at hall
  refine ⟨_, s', ?_, hwired.copies hpop hs.isSound hord hr hparent rfl ?_⟩
  · have hfinish : e.finish outputPortName = .ok
        ⟨s.pathFor o.parent o.name, portPath (s.pathFor o.parent o.name) outputPortName,
          e.inputPorts, e.nodes⟩ := by
      unfold Emission.finish
      rw [hpop.compound, hpop.outputPorts]
      simp
    exact Plan.emit_of_run hall hfinish
  · exact congrArg List.eraseDups (filterMap_port hplan)

/-- The square of a variable: its one port feeds both arguments of the product. -/
theorem Table.compile_emit_copies_square :
    let t := ((Table.empty.push (.symbol "x")).2.push (.operation .mul [0, 0])).2
    let p : Plan := ⟨"expr", "/", "output", 1,
      [.createCompound "/" "expr", .createOutputPort "output",
        .createNode 1 ⟨"Core::Math,multiply"⟩, .createInputPort "x" true,
        .connect .nodeToOutput (.node 1) (.compoundOutput "output"),
        .connect .symbolToInput (.compoundInput "x") (.node 1),
        .connect .symbolToInput (.compoundInput "x") (.node 1)],
      [{ expr := 1, role := .operator, nodeType := some ⟨"Core::Math,multiply"⟩ },
        { expr := 0, role := .input, port := some "x" }],
      [.output 1, .input "x" 1, .input "x" 1]⟩
    ∃ k s', p.emit Store.empty = .ok k s' ∧ k.Copies t 1 .standard p Store.empty s' := by
  intro t p
  have hx : (Table.empty.push (.symbol "x")).2.Built :=
    .push .empty (show Table.empty.push? (.symbol "x") = some _ from rfl)
  have ht : t.Built := .push hx (show Table.push? _ (.operation .mul [0, 0]) = some _ from rfl)
  have hc : t.compile 1 .standard {} = .ok p := by decide +kernel
  exact Table.compile_emit_copies ht (by decide) hc .empty rfl (by decide) (by decide)

end

end FormulaGraph
