/-
  File:      FormulaGraph/Proofs/Emission/Acyclic.lean
  Subject:   Port handles name one port each, and data does not flow in circles.

  The path of a port does not tell in which direction the port is used. The output port of a
  compound is called `output`, and a variable may be called so too; then both have one path, the
  compound has one handle for two ports, and its result flows back into its formula. No other name
  does harm, and nothing is asked of the names that the catalogue gives to nodes.

  * `Store.Flow`, `Store.Acyclic` -- along wires and through nodes, and that no port feeds itself;
  * `Port.At.unique` -- apart from an input called `output`, paths tell ports apart;
  * `Strung.rank_lt` -- data flows from arguments to operations, so a rank goes up along the way;
  * `Strung.flows_to_output` -- every expression flows to the output port;
  * `buildText_acyclic` -- handles differ and nothing flows in circles, exactly if the formula has
    no variable `output`.
-/
import Mathlib.Logic.Relation
import FormulaGraph.Build
import FormulaGraph.Proofs.Emission.Copy
import FormulaGraph.Proofs.Emission.Furnished
import FormulaGraph.Proofs.Table.Normal

namespace FormulaGraph

open Store

/-! ## 1. Flow -/

/-- Data flows from port to port of a compound: along a wire, and from the inputs of a node to its
    outputs. -/
inductive Store.Flow (s : Store) (compound : String) : String → String → Prop where
  | wire {w : Wire} (mem : w ∈ s.wiresWithin compound) : Flow s compound w.source w.target
  | node {path input output : String} {r : Record} (found : s.record? path = some r)
      (inside : r.container = compound) (isNode : r.isCompound = false)
      (from_mem : input ∈ r.inputs) (to_mem : output ∈ r.outputs) :
      Flow s compound (portPath path input) (portPath path output)

/-- No port of the compound feeds itself. -/
def Store.Acyclic (s : Store) (compound : String) : Prop :=
  ∀ port, ¬ Relation.TransGen (s.Flow compound) port port

/-- The handles of the ports of a compound. -/
def Compound.handles (k : Compound) : List String := k.outputPort :: k.inputPorts.map Prod.snd

/-- A variable of this name stands in the expression. -/
def Table.Mentions (t : Table) (root : Nat) (name : String) : Prop :=
  ∃ id, t.Below root id ∧ t.symbolName? id = some name

/-! ## 2. Paths of ports -/

namespace Port

/-- The node of a port stands in the compound. -/
def Inside (k : String) : Port → Prop
  | input _ => True
  | output => True
  | nodeInput node _ => ∃ name, node = childPath k name
  | nodeOutput node => ∃ name, node = childPath k name

/-- What a path stands for, where no input is called like the output. -/
structure At (k path : String) (p : Port) : Prop where
  inside : p.Inside k
  ne_output : p ≠ .input outputPortName
  path_eq : path = p.path k

/-- **Paths tell ports apart**, but for an input called like the output. -/
theorem At.unique {k path : String} {p q : Port} (hk : k ≠ rootPath) (hp : p.At k path)
    (hq : q.At k path) : p = q := by
  have h : p.path k = q.path k := hp.path_eq.symm.trans hq.path_eq
  obtain ⟨hp, hpo, _⟩ := hp
  obtain ⟨hq, hqo, _⟩ := hq
  have hdot := notMem_point_addedInput
  have hout : '.' ∉ outputName.toList := by decide
  have hnode : ∀ {node port name : String}, (∃ own, node = childPath k own) →
      portPath node port ≠ portPath k name := by
    rintro _ port name ⟨own, rfl⟩
    exact portPath_childPath_ne hk own port name
  cases p with
  | input name =>
    cases q with
    | input other => exact congrArg input (portPath_injective k h)
    | output => exact absurd (congrArg input (portPath_injective k h)) hpo
    | nodeInput node number => exact absurd h.symm (hnode hq)
    | nodeOutput node => exact absurd h.symm (hnode hq)
  | output =>
    cases q with
    | input other => exact absurd (congrArg input (portPath_injective k h)).symm hqo
    | output => rfl
    | nodeInput node number => exact absurd h.symm (hnode hq)
    | nodeOutput node => exact absurd h.symm (hnode hq)
  | nodeInput node number =>
    cases q with
    | input other => exact absurd h (hnode hp)
    | output => exact absurd h (hnode hp)
    | nodeInput node' number' =>
      obtain ⟨rfl, hn⟩ := portPath_inj_last (hdot number) (hdot number') h
      rw [addedInput_injective hn]
    | nodeOutput node' =>
      exact absurd (portPath_inj_last (hdot number) hout h).2 (addedInput_ne_outputName number)
  | nodeOutput node =>
    cases q with
    | input other => exact absurd h (hnode hp)
    | output => exact absurd h (hnode hp)
    | nodeInput node' number' =>
      exact absurd (portPath_inj_last hout (hdot number') h).2.symm
        (addedInput_ne_outputName number')
    | nodeOutput node' => rw [(portPath_inj_last hout hout h).1]

/-- The ports inside a compound belong to it, as the store tells it from their paths. -/
theorem Inside.belongs {k : String} (hk : k ≠ rootPath) {p : Port} (h : p.Inside k) :
    (isWithin k (p.path k) || isPortOf k (p.path k)) = true := by
  have hnode : ∀ name port, isWithin k (portPath (childPath k name) port) = true := by
    intro name port
    refine isWithin_portPath_of (isWithin_iff.mpr ?_)
    rw [toList_childPath, stem, if_neg hk]
    exact ⟨name.toList, by simp⟩
  rw [Bool.or_eq_true]
  cases p with
  | input name => exact .inr (isPortOf_portPath_self k name)
  | output => exact .inr (isPortOf_portPath_self k _)
  | nodeInput node number =>
    obtain ⟨name, rfl⟩ := h
    exact .inl (hnode name _)
  | nodeOutput node =>
    obtain ⟨name, rfl⟩ := h
    exact .inl (hnode name _)

/-- How late data comes to a port, if the node of the expression `id` has the level `id`. -/
def rank (level : String → Nat) (root : Nat) : Port → Nat
  | input _ => 0
  | nodeInput node _ => 2 * level node + 1
  | nodeOutput node => 2 * level node + 2
  | output => 2 * root + 3

end Port

/-! ## 3. A rank that goes up -/

namespace Furnished

variable {k : String} {e : Emission} {s : Store}

/-- The node of an expression stands in the compound. -/
theorem exists_childPath (h : Furnished k e s) {id : Nat} {path : String}
    (hl : e.nodes.lookup id = some path) : ∃ name, path = childPath k name := by
  obtain ⟨r, hr⟩ := Option.isSome_iff_exists.mp (h.made id path hl).2
  exact ⟨r.name, (h.node_of_lookup hl hr).path_eq⟩

theorem inside_of_leaves (h : Furnished k e s) {source : Endpoint} {p : Port}
    (hp : e.Leaves source p) :
    p.Inside k := by
  cases hp with
  | input listed => trivial
  | node made => exact h.exists_childPath made

theorem inside_of_arrives (h : Furnished k e s) {target : Endpoint} {q : Port}
    (hq : e.Arrives s target q) : q.Inside k := by
  cases hq with
  | output => trivial
  | node made found listed => exact h.exists_childPath made

/-- Nodes can be given levels: no two expressions share one. -/
theorem exists_level (h : Furnished k e s) :
    ∃ level : String → Nat, ∀ id path, e.nodes.lookup id = some path → level path = id := by
  classical
  refine ⟨fun path => if hp : ∃ id, e.nodes.lookup id = some path then hp.choose else 0, ?_⟩
  intro id path hl
  have hp : ∃ id, e.nodes.lookup id = some path := ⟨id, hl⟩
  exact (dif_pos hp).trans (h.inj _ _ path hp.choose_spec hl)

end Furnished

namespace Furnished.Strung

variable {t : Table} {root : Nat} {k : String} {e : Emission} {s : Store} {level : String → Nat}

/-- What an expression gives comes no later than its own rank. -/
theorem rank_leaves_le (root : Nat)
    (hlevel : ∀ id path, e.nodes.lookup id = some path → level path = id) {id : Nat} {p : Port}
    (hp : e.Leaves (t.sourceEnd id) p) : p.rank level root ≤ 2 * id + 2 := by
  unfold Table.sourceEnd at hp
  split at hp
  · cases hp
    exact Nat.zero_le _
  · cases hp with
    | node made =>
      rw [Port.rank, hlevel id _ made]

/-- A wire of the plan leads upwards. -/
theorem rank_wire_lt (ht : t.Ordered)
    (hlevel : ∀ id path, e.nodes.lookup id = some path → level path = id)
    {step : BuildStep} {w : Wire} (hstep : step ∈ t.wireSteps root) (hw : e.WireOf k s step w) :
    ∃ source target p q, e.Leaves source p ∧ e.Arrives s target q ∧ w.source = p.path k ∧
      w.target = q.path k ∧ p.rank level root < q.rank level root := by
  cases hw with
  | @connect kind source target p q leaves arrives =>
    refine ⟨source, target, p, q, leaves, arrives, rfl, rfl, ?_⟩
    rw [Table.wireSteps_eq ht] at hstep
    rcases List.mem_cons.mp hstep with he | hm
    · cases he
      have hle := rank_leaves_le root hlevel leaves
      cases arrives
      exact Nat.lt_succ_of_le hle
    · obtain ⟨⟨arg, id⟩, hu, he⟩ := List.mem_map.mp hm
      cases he
      have hle := rank_leaves_le root hlevel leaves
      have hlt := ht.args_lt ((Table.mem_uses_iff ht).mp hu).2
      cases arrives with
      | node made found listed =>
        rw [Port.rank, hlevel id _ made]
        omega

/-- Data flows upwards, as long as no input is called like the output. -/
theorem rank_flow_lt (h : Strung k e (t.wireSteps root) s) (ht : t.Ordered)
    (hlevel : ∀ id path, e.nodes.lookup id = some path → level path = id)
    (hfree : e.inputPorts.lookup outputPortName = none) {a b : String} (hf : s.Flow k a b) :
    ∃ p q : Port, p.At k a ∧ q.At k b ∧ p.rank level root < q.rank level root := by
  cases hf with
  | @wire w mem =>
    obtain ⟨step, hm, hw⟩ := h.accounted w (List.mem_filter.mp mem).1
    obtain ⟨source, target, p, q, hp, hq, hsource, htarget, hlt⟩ := rank_wire_lt ht hlevel hm hw
    refine ⟨p, q, ⟨h.furnished.inside_of_leaves hp, ?_, hsource⟩,
      ⟨h.furnished.inside_of_arrives hq, ?_, htarget⟩, hlt⟩
    · rintro rfl
      cases hp with
      | input listed =>
        rw [hfree] at listed
        cases listed
    · rintro rfl
      cases hq
  | @node path input output r found inside isNode from_mem to_mem =>
    have hne : path ≠ k := by
      rintro rfl
      obtain ⟨r', hr', hcomp, _⟩ := h.furnished.record
      rw [found] at hr'
      cases hr'
      rw [isNode] at hcomp
      cases hcomp
    have hnode := h.furnished.nodes path r hne found
    obtain ⟨number, rfl⟩ := hnode.inputs input from_mem
    rw [hnode.outputs] at to_mem
    obtain rfl := List.mem_singleton.mp to_mem
    exact ⟨.nodeInput path number, .nodeOutput path, ⟨⟨_, hnode.path_eq⟩, nofun, rfl⟩,
      ⟨⟨_, hnode.path_eq⟩, nofun, rfl⟩, Nat.lt_succ_self _⟩

/-- **So it does along every chain.** -/
theorem rank_lt (h : Strung k e (t.wireSteps root) s) (ht : t.Ordered)
    (hlevel : ∀ id path, e.nodes.lookup id = some path → level path = id)
    (hfree : e.inputPorts.lookup outputPortName = none) {a b : String}
    (hf : Relation.TransGen (s.Flow k) a b) :
    ∃ p q : Port, p.At k a ∧ q.At k b ∧ p.rank level root < q.rank level root := by
  induction hf with
  | single hf => exact h.rank_flow_lt ht hlevel hfree hf
  | tail _ hf ih =>
    obtain ⟨p, q, hp, hq, hlt⟩ := ih
    obtain ⟨p', q', hp', hq', hlt'⟩ := h.rank_flow_lt ht hlevel hfree hf
    -- the chain and its last step meet in one port
    obtain rfl := hq.unique h.furnished.ne_root hp'
    exact ⟨p, q', hp, hq', Nat.lt_trans hlt hlt'⟩

theorem acyclic (h : Strung k e (t.wireSteps root) s) (ht : t.Ordered)
    (hfree : e.inputPorts.lookup outputPortName = none) : s.Acyclic k := by
  intro port hf
  obtain ⟨level, hlevel⟩ := h.furnished.exists_level
  obtain ⟨p, q, hp, hq, hlt⟩ := h.rank_lt ht hlevel hfree hf
  obtain rfl := hp.unique h.furnished.ne_root hq
  exact Nat.lt_irrefl _ hlt

/-! ## 4. Every expression flows to the output -/

/-- The wire of a planned step is one of the compound's. -/
theorem flow_of_step (h : Strung k e (t.wireSteps root) s) {kind : WireKind}
    {source target : Endpoint} (hm : BuildStep.connect kind source target ∈ t.wireSteps root) :
    ∃ p q, e.Leaves source p ∧ e.Arrives s target q ∧ s.Flow k (p.path k) (q.path k) := by
  obtain ⟨w, hw, hof⟩ := h.wired _ hm
  cases hof with
  | @connect _ _ _ p q leaves arrives =>
    refine ⟨p, q, leaves, arrives, .wire (List.mem_filter.mpr ⟨hw, ?_⟩)⟩
    rw [Bool.and_eq_true]
    exact ⟨(h.furnished.inside_of_leaves leaves).belongs h.furnished.ne_root,
      (h.furnished.inside_of_arrives arrives).belongs h.furnished.ne_root⟩

/-- **Whatever is below the root flows to the output port.** -/
theorem flows_to_output (h : Strung k e (t.wireSteps root) s) (ht : t.Ordered) {id : Nat}
    (hb : t.Below root id) : ∃ p, e.Leaves (t.sourceEnd id) p ∧
      Relation.TransGen (s.Flow k) (p.path k) (portPath k outputPortName) := by
  have hsteps := Table.wireSteps_eq ht root
  induction hb with
  | root =>
    obtain ⟨p, q, hp, hq, hf⟩ := h.flow_of_step (hsteps ▸ List.mem_cons_self)
    cases hq
    exact ⟨p, hp, .single hf⟩
  | @arg id arg hb ha ih =>
    have hm : t.useStep (arg, id) ∈ t.wireSteps root := by
      rw [hsteps]
      exact List.mem_cons_of_mem _ (List.mem_map_of_mem ((Table.mem_uses_iff ht).mpr ⟨hb, ha⟩))
    have hnode : t.sourceEnd id = .node id := by
      unfold Table.sourceEnd
      split
      · rename_i hs
        rw [Table.args_of_symbolName? hs] at ha
        cases ha
      · rfl
    obtain ⟨p, q, hp, hq, hf⟩ := h.flow_of_step hm
    obtain ⟨p', hp', hrest⟩ := ih
    rw [hnode] at hp'
    refine ⟨p, hp, ?_⟩
    cases hq with
    | @node _ number path r made found listed =>
      cases hp' with
      | node made' =>
        rw [made] at made'
        cases made'
        have hrec := h.furnished.node_of_lookup made found
        have hthrough : s.Flow k (portPath path (addedInput number)) (portPath path outputName) :=
          .node found hrec.container hrec.isNode listed
            (by rw [hrec.outputs]; exact List.mem_cons_self)
        exact (Relation.TransGen.single hf).trans ((Relation.TransGen.single hthrough).trans hrest)

/-- A variable of the expression has an input port, which flows to the output port too. -/
theorem flows_of_mentions (h : Strung k e (t.wireSteps root) s) (ht : t.Ordered) {name : String}
    (hm : t.Mentions root name) : (e.inputPorts.lookup name).isSome ∧
      Relation.TransGen (s.Flow k) (portPath k name) (portPath k outputPortName) := by
  obtain ⟨id, hb, hs⟩ := hm
  obtain ⟨p, hp, hf⟩ := h.flows_to_output ht hb
  have hend : t.sourceEnd id = .compoundInput name := by
    unfold Table.sourceEnd
    rw [hs]
  rw [hend] at hp
  cases hp with
  | input listed => exact ⟨listed, hf⟩

end Furnished.Strung

/-! ## 5. From the text -/

/-- An input port is planned for variables only. -/
theorem Table.mentions_of_step {t : Table} {root : Nat} {c : Catalogue} {nodes : List PlannedNode}
    {name : String} (ht : t.Ordered)
    (hplan : List.Forall₂ (fun d n => planNode c d.1 d.2 = .ok n) (t.creations root) nodes)
    (hm : BuildStep.createInputPort name true ∈ nodes.flatMap PlannedNode.steps) :
    t.Mentions root name := by
  obtain ⟨n, hn, hstep⟩ := List.mem_flatMap.mp hm
  have hport : n.port = some name := by
    unfold PlannedNode.steps at hstep
    split at hstep
    · rename_i hp
      cases List.mem_singleton.mp hstep
      exact hp
    · rcases List.mem_cons.mp hstep with he | hv
      · cases he
      · obtain ⟨value, _, he⟩ := Option.map_eq_some_iff.mp (Option.mem_toList.mp hv)
        cases he
    · cases hstep
  have hname : name ∈ symbolsOf (t.creations root) := by
    rw [symbolsOf, List.mem_eraseDups, ← filterMap_port hplan]
    exact List.mem_filterMap.mpr ⟨n, hn, hport⟩
  exact (mem_symbolsOf_creations ht).mp hname

/-- The steps behind the ports and nodes all connect. -/
theorem Table.exists_connect {t : Table} {root : Nat} {step : BuildStep} (ht : t.Ordered)
    (h : step ∈ t.wireSteps root) : ∃ kind source target, step = .connect kind source target := by
  rw [wireSteps_eq ht] at h
  rcases List.mem_cons.mp h with rfl | h
  · exact ⟨_, _, _, rfl⟩
  · obtain ⟨use, _, rfl⟩ := List.mem_map.mp h
    exact ⟨_, _, _, rfl⟩

section

variable {cs : List Char} {c : Catalogue} {o : CompoundOptions} {k : Compound} {s : Store}

theorem planText_ok {p : Plan} (h : planText cs c o = .ok p) :
    ∃ root t, Table.read cs Table.empty = .ok root t ∧ t.compile root c o = .ok p := by
  unfold planText at h
  cases hread : Table.read cs Table.empty with
  | error stop t =>
    rw [hread] at h
    cases h
  | ok root t =>
    rw [hread] at h
    exact ⟨root, t, rfl, mapError_ok_iff.mp h⟩

/-- A compound is built by the plan of the expression that was read. -/
theorem buildText_ok {s₀ : Store} (h : buildText cs c o s₀ = .ok k s) :
    ∃ root t p, Table.read cs Table.empty = .ok root t ∧ t.Ordered ∧
      t.compile root c o = .ok p ∧ p.emit s₀ = .ok k s := by
  unfold buildText at h
  cases hplan : planText cs c o with
  | error stop =>
    rw [hplan] at h
    cases h
  | ok p =>
    rw [hplan] at h
    obtain ⟨root, t, hread, hcompile⟩ := planText_ok hplan
    have hnormal := Table.normal_empty.read cs
    rw [hread] at hnormal
    exact ⟨root, t, p, hread, hnormal.ordered, hcompile, adaptExcept_ok_iff.mp h⟩

/-- **What the text of a formula has built in the empty store**: its compound, with an input port
    for each variable, and one wire for each connecting step of its plan, in their order. -/
theorem wires_of_buildText (hn : o.name ≠ "") (h : buildText cs c o Store.empty = .ok k s) :
    ∃ root t e, Table.read cs Table.empty = .ok root t ∧ t.Ordered ∧ Furnished k.path e s ∧
      List.Forall₂ (e.WireOf k.path s) (t.wireSteps root) s.wires ∧
      k.path = childPath rootPath o.name ∧ k.outputPort = portPath k.path outputPortName ∧
      k.inputPorts = e.inputPorts ∧ ∀ name ∈ e.inputPorts.map Prod.fst, t.Mentions root name := by
  obtain ⟨root, t, p, hread, ht, hcompile, h⟩ := buildText_ok h
  obtain ⟨nodes, hnodes, rfl⟩ := Table.compile_ok hcompile
  obtain ⟨e, hrun, hfinish⟩ := Plan.run_of_emit h
  obtain ⟨e₁, s₁, hfurnished, hw, hp, hrest⟩ := Furnished.start hn hrun
  obtain ⟨e₂, s₂, hfill, hwire⟩ := Emission.run_append_ok hrest
  have hfills : ∀ step ∈ nodes.flatMap PlannedNode.steps, step.fills = true := by
    intro step hm
    obtain ⟨n, _, hm⟩ := List.mem_flatMap.mp hm
    exact PlannedNode.fills_of_mem hm
  obtain ⟨hfurnished₂, hw₂, hnames⟩ := hfurnished.filled hw hp hfills hfill
  obtain ⟨rfl, hfurnished', -, new, hnew, hall⟩ :=
    hfurnished₂.connects (fun step => Table.exists_connect ht) hwire
  rw [hw₂, List.nil_append] at hnew
  rw [← hnew] at hall
  unfold Emission.finish at hfinish
  rw [hfurnished'.compound, hfurnished'.outputPorts] at hfinish
  simp only [List.lookup_cons, BEq.rfl, Except.ok.injEq] at hfinish
  subst hfinish
  exact ⟨root, t, e, hread, ht, hfurnished', hall, rfl, rfl, rfl,
    fun name hm => Table.mentions_of_step ht hnodes (hnames name hm)⟩

theorem strung_of_buildText (hn : o.name ≠ "") (h : buildText cs c o Store.empty = .ok k s) :
    ∃ root t e, Table.read cs Table.empty = .ok root t ∧ t.Ordered ∧
      Furnished.Strung k.path e (t.wireSteps root) s ∧
      k.outputPort = portPath k.path outputPortName ∧ k.inputPorts = e.inputPorts ∧
      ∀ name ∈ e.inputPorts.map Prod.fst, t.Mentions root name := by
  obtain ⟨root, t, e, hread, ht, hfurnished, hall, -, hout, hin, hnames⟩ := wires_of_buildText hn h
  exact ⟨root, t, e, hread, ht, hfurnished.strung hall, hout, hin, hnames⟩

/-- **Handles differ and no port feeds itself, exactly if the formula has no variable `output`.**
    The compound was built in the empty store under some name; nothing is asked of the catalogue. -/
theorem buildText_acyclic (hn : o.name ≠ "") (h : buildText cs c o Store.empty = .ok k s) :
    ∃ root t, Table.read cs Table.empty = .ok root t ∧
      (k.handles.Nodup ↔ ¬ t.Mentions root outputPortName) ∧
      (s.Acyclic k.path ↔ ¬ t.Mentions root outputPortName) := by
  obtain ⟨root, t, e, hread, ht, hstrung, hout, hin, hnames⟩ := strung_of_buildText hn h
  obtain ⟨r, hr, _, _, hnodup, hports⟩ := hstrung.furnished.record
  have hfst : e.inputPorts.map Prod.fst = r.inputs := by
    rw [hports, List.map_map]
    exact List.map_id _
  have hlisted : outputPortName ∈ r.inputs ↔ t.Mentions root outputPortName := by
    constructor
    · intro hm
      exact hnames _ (hfst ▸ hm)
    · intro hm
      rw [← hfst, ← Assoc.isSome_lookup_iff]
      exact (hstrung.flows_of_mentions ht hm).1
  refine ⟨root, t, hread, ?_, ?_⟩
  · have hhandles : k.handles = (outputPortName :: r.inputs).map (portPath k.path) := by
      rw [Compound.handles, hout, hin, hports, List.map_map]
      rfl
    rw [hhandles, List.nodup_map_iff (portPath_injective k.path), List.nodup_cons, hlisted]
    exact and_iff_left hnodup
  · constructor
    · intro hacyclic hm
      exact hacyclic _ (hstrung.flows_of_mentions ht hm).2
    · intro hm
      refine hstrung.acyclic ht ?_
      rw [← Option.not_isSome_iff_eq_none, Assoc.isSome_lookup_iff, hfst, hlisted]
      exact hm

end

/-- Two operations under one name with a point and a slash in it, and a variable that is used
    twice. -/
theorem buildText_acyclic_shared :
    let c := Catalogue.ofList [(.add, ⟨"Core,a.b/c"⟩), (.mul, ⟨"Core,a.b/c"⟩)]
    ∃ k s, buildText "x*(x+y)".toList c {} Store.empty = .ok k s ∧
      k.nodes.map Prod.snd = ["/expr/a.b/c", "/expr/a.b/c_1"] ∧
      k.handles = ["/expr.output", "/expr.x", "/expr.y"] ∧ s.Acyclic k.path := by
  intro c
  have hcheck : (match buildText "x*(x+y)".toList c {} Store.empty with
      | .ok k _ => decide (k.nodes.map Prod.snd = ["/expr/a.b/c", "/expr/a.b/c_1"] ∧
          k.handles = ["/expr.output", "/expr.x", "/expr.y"])
      | .error _ _ => false) = true := by decide +kernel
  cases hbuilt : buildText "x*(x+y)".toList c {} Store.empty with
  | error failure s =>
    rw [hbuilt] at hcheck
    cases hcheck
  | ok k s =>
    rw [hbuilt] at hcheck
    obtain ⟨hnodes, hhandles⟩ := of_decide_eq_true hcheck
    obtain ⟨root, t, _, hnodup, hacyclic⟩ := buildText_acyclic (by decide) hbuilt
    have hfree := hnodup.mp (by rw [hhandles]; decide)
    exact ⟨k, s, rfl, hnodes, hhandles, hacyclic.mpr hfree⟩

/-- A variable called `output` shares its handle with the result, and the sum feeds itself. -/
theorem buildText_output_cycle :
    ∃ k s, buildText "output+1".toList .standard {} Store.empty = .ok k s ∧
      k.handles = ["/expr.output", "/expr.output"] ∧ ¬ k.handles.Nodup ∧ ¬ s.Acyclic k.path := by
  have hcheck : (match buildText "output+1".toList .standard {} Store.empty with
      | .ok k s => decide (k.path = "/expr" ∧ k.handles = ["/expr.output", "/expr.output"] ∧
          ⟨"/expr.output", "/expr/add.input_1", .symbolToInput⟩ ∈ s.wiresWithin "/expr" ∧
          ⟨"/expr/add.output", "/expr.output", .nodeToOutput⟩ ∈ s.wiresWithin "/expr" ∧
          s.record? "/expr/add" = some ⟨"add", "/expr", some ⟨"Core::Math,add"⟩, none,
            ["input", "input_1"], ["output"]⟩)
      | .error _ _ => false) = true := by decide +kernel
  cases hbuilt : buildText "output+1".toList .standard {} Store.empty with
  | error failure s =>
    rw [hbuilt] at hcheck
    cases hcheck
  | ok k s =>
    rw [hbuilt] at hcheck
    obtain ⟨hpath, hhandles, hin, hout, hrec⟩ := of_decide_eq_true hcheck
    refine ⟨k, s, rfl, hhandles, by rw [hhandles]; decide, fun hacyclic => ?_⟩
    rw [hpath] at hacyclic
    have hadd : s.Flow "/expr" (portPath "/expr/add" "input_1") (portPath "/expr/add" "output") :=
      .node hrec rfl rfl (by decide) (by decide)
    exact hacyclic "/expr.output"
      (((Relation.TransGen.single (.wire hin)).tail hadd).tail (.wire hout))

end FormulaGraph
