/-
  File:      FormulaGraph/Proofs/Drawing/Wires.lean
  Subject:   Which wires of a formula are edges of their own in its drawing.

  A drawing is a strict graph: of edges between the same two ids only one is drawn. The ends of an
  edge are nodes and ports of the compound, so it does not tell which input of a node its wire leads
  to. Two wires fall together exactly if they carry the same argument to the same operation.

  * `splitPort_portPath` -- cutting a port off the path of its node;
  * `Table.drawnAt?`, `Furnished.drawnAt?_inj` -- the id of an expression in the drawing, its own;
  * `Furnished.drawnAs_wireEnds` -- the edge of an argument's use;
  * `Table.nodup_uses_iff`, `Furnished.nodup_wireEnds_iff` -- edges differ if no argument is
    repeated;
  * `Furnished.edges_eq` -- the ids of a formula can be read, so the drawing tells its wires;
  * `drawing_strict_iff` -- the edges of the drawing of a formula, and when they differ.
-/
import Mathlib.Data.List.Forall2
import Mathlib.Data.List.Nodup
import FormulaGraph.Proofs.Drawing.Statements
import FormulaGraph.Proofs.Emission.Named
import FormulaGraph.Proofs.Table.Sharing
import FormulaGraph.Proofs.Table.Written

namespace FormulaGraph

open Store

/-! ## 1. The ends of a wire -/

/-- **A port is cut off at its point**, whatever the path of its node. -/
theorem Drawing.splitPort_portPath {port : String} (h : '.' ∉ port.toList) (node : String) :
    splitPort (portPath node port) = (node, port) := by
  have hreversed : (portPath node port).toList.reverse =
      port.toList.reverse ++ '.' :: node.toList.reverse := by
    rw [toList_portPath]
    simp
  have htake : (port.toList.reverse ++ '.' :: node.toList.reverse).takeWhile (· != '.') =
      port.toList.reverse := by
    rw [List.takeWhile_append_of_pos, List.takeWhile_cons_of_neg (by simp), List.append_nil]
    intro c hc
    have hne : c ≠ '.' := fun he => h (he ▸ List.mem_reverse.mp hc)
    simpa using hne
  unfold splitPort
  dsimp only
  rw [hreversed, htake, List.drop_left]
  simp

theorem Drawing.splitPort_nodeInput (node : String) (number : Nat) :
    splitPort (portPath node (addedInput number)) = (node, addedInput number) :=
  splitPort_portPath (notMem_point_addedInput number) node

theorem Drawing.splitPort_nodeOutput (node : String) :
    splitPort (portPath node outputName) = (node, outputName) :=
  splitPort_portPath (by decide) node

/-- The id of an expression in the drawing: the port of a variable, or the node of anything else. -/
def Table.drawnAt? (t : Table) (k : String) (nodes : List (Nat × String)) (id : Nat) :
    Option String :=
  match t.symbolName? id with
  | some name => some (portPath k name)
  | none => nodes.lookup id

/-- An edge joins the ids of an argument and of the operation that uses it. -/
def Table.DrawnAs (t : Table) (k : String) (nodes : List (Nat × String)) (use : Nat × Nat)
    (edge : String × String) : Prop :=
  t.drawnAt? k nodes use.1 = some edge.1 ∧ t.drawnAt? k nodes use.2 = some edge.2

namespace Furnished

variable {t : Table} {root id : Nat} {k path : String} {e : Emission} {s : Store} {w : Wire}

/-- The path of a node is none of a port of the compound. -/
theorem ne_portPath (h : Furnished k e s) (hl : e.nodes.lookup id = some path) (port : String) :
    path ≠ portPath k port := by
  obtain ⟨own, rfl⟩ := h.exists_childPath hl
  intro he
  have he := congrArg String.toList he
  rw [toList_portPath, toList_childPath, stem, if_neg h.ne_root, List.append_cancel_left_eq] at he
  exact absurd (List.cons.inj he).1 (by decide)

/-- **No two expressions share an id of the drawing.** -/
theorem drawnAt?_inj (h : Furnished k e s) (hc : t.Complete) {other : Nat}
    (hid : t.drawnAt? k e.nodes id = some path) (ho : t.drawnAt? k e.nodes other = some path) :
    id = other := by
  unfold Table.drawnAt? at hid ho
  split at hid
  · rename_i name hname
    split at ho
    · -- a variable has one id, since every node is interned under its own
      rename_i name' hname'
      have hsame : name = name' := portPath_injective k (Option.some.inj (hid.trans ho.symm))
      have hstored := node?_of_symbolName? hname
      rw [hsame] at hstored
      exact Option.some.inj
        ((hc id _ hstored).symm.trans (hc other _ (node?_of_symbolName? hname')))
    · exact absurd (Option.some.inj hid).symm (h.ne_portPath ho name)
  · split at ho
    · rename_i name _
      exact absurd (Option.some.inj ho).symm (h.ne_portPath hid name)
    · exact h.inj id other path hid ho

/-- An operation is drawn as its node. -/
theorem drawnAt?_of_args {arg : Nat} (ha : arg ∈ t.args id) :
    t.drawnAt? k e.nodes id = e.nodes.lookup id := by
  unfold Table.drawnAt?
  split
  · rename_i hname
    rw [Table.args_of_symbolName? hname] at ha
    cases ha
  · rfl

/-- **The wire of a use is drawn from the argument to the operation.** -/
theorem drawnAs_wireEnds {arg : Nat} (ha : arg ∈ t.args id)
    (hw : e.WireOf k s (t.useStep (arg, id)) w) :
    t.DrawnAs k e.nodes (arg, id) (Drawing.wireEnds w) := by
  unfold Table.DrawnAs
  rw [drawnAt?_of_args ha]
  unfold Table.drawnAt?
  unfold Table.useStep Table.useKind Table.sourceEnd at hw
  cases hname : t.symbolName? arg with
  | some name =>
    simp only [hname] at hw
    cases hw with
    | connect leaves arrives =>
      cases leaves
      cases arrives with
      | @node _ number path _ made found listed =>
        refine ⟨rfl, made.trans ?_⟩
        show some path = some (Drawing.splitPort (portPath path (addedInput number))).1
        rw [Drawing.splitPort_nodeInput]
  | none =>
    simp only [hname] at hw
    cases hw with
    | connect leaves arrives =>
      cases leaves with
      | @node _ source given =>
        cases arrives with
        | @node _ number path _ made found listed =>
          refine ⟨given.trans ?_, made.trans ?_⟩
          · show some source = some (Drawing.splitPort (portPath source outputName)).1
            rw [Drawing.splitPort_nodeOutput]
          · show some path = some (Drawing.splitPort (portPath path (addedInput number))).1
            rw [Drawing.splitPort_nodeInput]

/-- The wire of the result is drawn to the output port. -/
theorem wireEnds_output
    (hw : e.WireOf k s
      (.connect (t.outKind root) (t.sourceEnd root) (.compoundOutput outputPortName)) w) :
    t.drawnAt? k e.nodes root = some (Drawing.wireEnds w).1 ∧
      (Drawing.wireEnds w).2 = portPath k outputPortName := by
  unfold Table.drawnAt?
  unfold Table.outKind Table.sourceEnd at hw
  cases hname : t.symbolName? root with
  | some name =>
    simp only [hname] at hw
    cases hw with
    | connect leaves arrives =>
      cases leaves
      cases arrives
      exact ⟨rfl, rfl⟩
  | none =>
    simp only [hname] at hw
    cases hw with
    | connect leaves arrives =>
      cases leaves with
      | @node _ source given =>
        cases arrives
        refine ⟨given.trans ?_, rfl⟩
        show some source = some (Drawing.splitPort (portPath source outputName)).1
        rw [Drawing.splitPort_nodeOutput]

end Furnished

/-! ## 2. When edges differ -/

/-- Uses are listed once each, unless an operation has an argument twice. -/
theorem Table.nodup_uses_iff {t : Table} {root : Nat} (ht : t.Ordered) :
    (t.uses root).Nodup ↔ ∀ id, t.Below root id → (t.args id).Nodup := by
  have hdisjoint : (t.preorder root).Pairwise
      (Function.onFun List.Disjoint fun id => (t.args id).map (·, id)) := by
    refine (nodup_preorder ht).imp fun {id other} hne use hu ho => hne ?_
    obtain ⟨arg, -, rfl⟩ := List.mem_map.mp hu
    obtain ⟨arg', -, he⟩ := List.mem_map.mp ho
    exact (congrArg Prod.snd he).symm
  have hpair (id : Nat) : ((t.args id).map (·, id)).Nodup ↔ (t.args id).Nodup :=
    List.nodup_map_iff (Prod.mk_left_injective id)
  rw [uses, List.nodup_flatMap, and_iff_left hdisjoint]
  constructor
  · intro h id hb
    exact (hpair id).mp (h id ((mem_preorder_iff ht).mpr hb))
  · intro h id hm
    exact (hpair id).mpr (h id ((mem_preorder_iff ht).mp hm))

namespace Furnished

variable {t : Table} {root : Nat} {k : String} {e : Emission} {s : Store}

theorem forall₂_drawnAs (ht : t.Ordered) {ws : List Wire}
    (hw : List.Forall₂ (e.WireOf k s) ((t.uses root).map t.useStep) ws) :
    List.Forall₂ (t.DrawnAs k e.nodes) (t.uses root) (ws.map Drawing.wireEnds) := by
  rw [List.forall₂_map_left_iff] at hw
  rw [List.forall₂_map_right_iff]
  have hmem : ∀ use ∈ t.uses root, use.1 ∈ t.args use.2 := fun use hu =>
    ((Table.mem_uses_iff ht).mp hu).2
  exact ((List.forall₂_and_left _ _).mpr ⟨hmem, hw⟩).imp fun _ _ hboth =>
    drawnAs_wireEnds hboth.1 hboth.2

/-- Uses and their edges determine one another. -/
theorem biUnique_drawnAs (h : Furnished k e s) (hc : t.Complete) :
    Relator.BiUnique (t.DrawnAs k e.nodes) := by
  constructor
  · intro use edge other hu ho
    exact Prod.ext (h.drawnAt?_inj hc hu.1 ho.1) (h.drawnAt?_inj hc hu.2 ho.2)
  · intro use edge other hu ho
    exact Prod.ext (Option.some.inj (hu.1.symm.trans ho.1)) (Option.some.inj (hu.2.symm.trans ho.2))

/-- **The edges of the wires differ, exactly if no operation has an argument twice.** -/
theorem nodup_wireEnds_iff (h : Furnished k e s) (ht : t.Ordered) (hc : t.Complete)
    (hw : List.Forall₂ (e.WireOf k s) (t.wireSteps root) s.wires) :
    (s.wires.map Drawing.wireEnds).Nodup ↔ ∀ id, t.Below root id → (t.args id).Nodup := by
  rw [Table.wireSteps_eq ht] at hw
  obtain ⟨w, ws, hfirst, hrest, hwires⟩ := List.forall₂_cons_left_iff.mp hw
  have hdrawn := forall₂_drawnAs ht hrest
  -- the first edge leads to a port, the others lead to nodes
  have hout : Drawing.wireEnds w ∉ ws.map Drawing.wireEnds := by
    intro hm
    obtain ⟨⟨arg, id⟩, hu, -, hnode⟩ := exists_of_forall₂ hdrawn _ hm
    rw [drawnAt?_of_args ((Table.mem_uses_iff ht).mp hu).2, (wireEnds_output hfirst).2] at hnode
    exact h.ne_portPath hnode outputPortName rfl
  rw [hwires, List.map_cons, List.nodup_cons, and_iff_right hout, ← Table.nodup_uses_iff ht]
  exact (List.rel_nodup (h.biUnique_drawnAs hc) hdrawn).symm

/-- All wires lie within the compound. -/
theorem wiresWithin_eq (h : Furnished k e s) {steps : List BuildStep}
    (hw : List.Forall₂ (e.WireOf k s) steps s.wires) : s.wiresWithin k = s.wires := by
  refine List.filter_eq_self.mpr fun w hm => ?_
  obtain ⟨step, -, hof⟩ := exists_of_forall₂ hw w hm
  cases hof with
  | connect leaves arrives =>
    rw [Bool.and_eq_true]
    exact ⟨(h.inside_of_leaves leaves).belongs h.ne_root,
      (h.inside_of_arrives arrives).belongs h.ne_root⟩

end Furnished

/-! ## 3. Names that can be read -/

namespace Drawing

theorem isTame_append {name other : String} :
    IsTame (name ++ other) ↔ IsTame name ∧ IsTame other := by
  unfold IsTame
  rw [oneLine_append, String.toList_append, List.mem_append, not_or]
  exact and_and_and_comm

theorem isTame_numberedName (base : String) (k : Nat) (h : IsTame base) :
    IsTame (numberedName base k) :=
  ⟨notMem_numberedName h.1 (by decide) (by decide), notMem_numberedName h.2 (by decide) (by decide)⟩

theorem isTame_of_isWord {name : String} (h : Token.IsWord name) : IsTame name :=
  ⟨h.notMem (by decide +kernel), h.notMem (by decide +kernel)⟩

theorem isTame_standard : ∀ entry ∈ Catalogue.standard.entries, IsTame entry.2.shortName := by
  decide +kernel

theorem isTame_addedInput (number : Nat) : IsTame (addedInput number) := by
  unfold addedInput
  split
  · decide
  · exact isTame_numberedName _ _ (by decide)

theorem isTame_portPath {node port : String} (hn : IsTame node) (hp : IsTame port) :
    IsTame (portPath node port) :=
  isTame_append.mpr ⟨isTame_append.mpr ⟨hn, by decide⟩, hp⟩

theorem isTame_childPath {container name : String} (hc : IsTame container) (hn : IsTame name) :
    IsTame (childPath container name) := by
  have hslash : IsTame "/" := by decide
  unfold childPath
  split
  · exact isTame_append.mpr ⟨hslash, hn⟩
  · exact isTame_append.mpr ⟨isTame_append.mpr ⟨hc, hslash⟩, hn⟩

end Drawing

namespace Furnished

variable {t : Table} {root id : Nat} {k path : String} {e : Emission} {s : Store} {w : Wire}

/-- Paths of nodes can be read. -/
theorem isTame_node (h : Furnished k e s) (hk : Drawing.IsTame k) (hs : s.Named Drawing.IsTame)
    {r : Record} (hp : path ≠ k) (hr : s.record? path = some r) : Drawing.IsTame path := by
  rw [(h.nodes path r hp hr).path_eq]
  exact Drawing.isTame_childPath hk (hs path r hr)

theorem isTame_drawnAt? (h : Furnished k e s) (hk : Drawing.IsTame k) (hs : s.Named Drawing.IsTame)
    (ht : t.Written) (hd : t.drawnAt? k e.nodes id = some path) : Drawing.IsTame path := by
  unfold Table.drawnAt? at hd
  split at hd
  · rename_i name hname
    cases hd
    have hword : Token.IsWord name := ht id _ (node?_of_symbolName? hname)
    exact Drawing.isTame_portPath hk (Drawing.isTame_of_isWord hword)
  · obtain ⟨hne, hsome⟩ := h.made id path hd
    obtain ⟨r, hr⟩ := Option.isSome_iff_exists.mp hsome
    exact h.isTame_node hk hs hne hr

/-- The ids and the label of every wire can be read. -/
theorem isTame_wire (h : Furnished k e s) (hk : Drawing.IsTame k) (hs : s.Named Drawing.IsTame)
    (ht : t.Written) (ho : t.Ordered) {step : BuildStep} (hstep : step ∈ t.wireSteps root)
    (hw : e.WireOf k s step w) : Drawing.IsTame (Drawing.wireEnds w).1 ∧
      Drawing.IsTame (Drawing.wireEnds w).2 ∧ OneLine (Drawing.splitPort w.target).2 := by
  have hlabel : OneLine (Drawing.splitPort w.target).2 := by
    cases hw with
    | connect leaves arrives =>
      cases arrives with
      | output =>
        show OneLine (Drawing.splitPort (portPath k outputPortName)).2
        rw [Drawing.splitPort_portPath (by decide)]
        show OneLine outputPortName
        decide
      | @node _ number path _ _ _ _ =>
        show OneLine (Drawing.splitPort (portPath path (addedInput number))).2
        rw [Drawing.splitPort_nodeInput]
        exact (Drawing.isTame_addedInput number).1
  rw [Table.wireSteps_eq ho] at hstep
  rcases List.mem_cons.mp hstep with rfl | hm
  · obtain ⟨hsource, htarget⟩ := wireEnds_output hw
    refine ⟨h.isTame_drawnAt? hk hs ht hsource, ?_, hlabel⟩
    rw [htarget]
    exact Drawing.isTame_portPath hk (by decide)
  · obtain ⟨⟨arg, id⟩, hu, rfl⟩ := List.mem_map.mp hm
    obtain ⟨hsource, htarget⟩ := drawnAs_wireEnds ((Table.mem_uses_iff ho).mp hu).2 hw
    exact ⟨h.isTame_drawnAt? hk hs ht hsource, h.isTame_drawnAt? hk hs ht htarget, hlabel⟩

/-- **The edges that are read off the drawing are those of the wires.** -/
theorem edges_eq (h : Furnished k e s) (hk : Drawing.IsTame k) (hs : s.Named Drawing.IsTame)
    (ht : t.Written) (ho : t.Ordered) (hw : List.Forall₂ (e.WireOf k s) (t.wireSteps root) s.wires)
    (hm : ∀ name ∈ e.inputPorts.map Prod.fst, t.Mentions root name) :
    Drawing.edges (s.drawing k) = s.wires.map Drawing.wireEnds := by
  rw [← h.wiresWithin_eq hw]
  refine Drawing.edges_drawing ?_ ?_ ?_
  · intro r hr port hport
    obtain ⟨r', hr', -, houtputs, -, hinputs⟩ := h.record
    cases hr.symm.trans hr'
    refine Drawing.isTame_portPath hk ?_
    rcases List.mem_append.mp hport with hin | hout
    · obtain ⟨id, -, hname⟩ := hm port (by
        rw [hinputs, List.map_map]
        exact List.mem_map.mpr ⟨port, hin, rfl⟩)
      exact Drawing.isTame_of_isWord (ht id _ (node?_of_symbolName? hname))
    · rw [houtputs] at hout
      cases List.mem_singleton.mp hout
      decide
  · intro path r hwithin hr
    have hne : path ≠ k := by
      rintro rfl
      have hlength := (isWithin_iff.mp hwithin).length_le
      simp at hlength
    exact ⟨h.isTame_node hk hs hne hr, (hs path r hr).1⟩
  · intro w hwithin
    obtain ⟨step, hstep, hof⟩ := exists_of_forall₂ hw w (List.mem_filter.mp hwithin).1
    exact h.isTame_wire hk hs ht ho hstep hof

end Furnished

/-! ## 4. From the text -/

section

variable {cs : List Char} {c : Catalogue} {o : CompoundOptions} {k : Compound} {s : Store}

/-- The drawing of a formula, with names that can be read: its edges are those of the wires, and
    they differ exactly if no operation has an argument twice. -/
theorem edges_of_buildText (hc : ∀ entry ∈ c.entries, Drawing.IsTame entry.2.shortName)
    (hn : o.name ≠ "") (htame : Drawing.IsTame o.name)
    (h : buildText cs c o Store.empty = .ok k s) :
    ∃ root t, Table.read cs Table.empty = .ok root t ∧ s.wiresWithin k.path = s.wires ∧
      Drawing.edges (s.drawing k.path) = s.wires.map Drawing.wireEnds ∧
      ((s.wires.map Drawing.wireEnds).Nodup ↔ ∀ id, t.Below root id → (t.args id).Nodup) := by
  obtain ⟨root, t, e, hread, ht, hfurnished, hw, hpath, -, -, hnames⟩ := wires_of_buildText hn h
  have hwritten := Table.writes_read cs Table.empty Table.written_empty
  have hcomplete := (Table.grows_read cs Table.empty).complete Table.complete_empty
  rw [hread] at hwritten hcomplete
  have hk : Drawing.IsTame k.path := by
    rw [hpath]
    exact Drawing.isTame_childPath (by decide) htame
  have hs : s.Named Drawing.IsTame :=
    (reachable_of_buildText hc htame h).named Drawing.isTame_numberedName
  exact ⟨root, t, hread, hfurnished.wiresWithin_eq hw,
    hfurnished.edges_eq hk hs hwritten ht hw hnames, hfurnished.nodup_wireEnds_iff ht hcomplete hw⟩

/-- **The wires of a drawn formula are edges of their own, exactly if no operation of the simplified
    expression has an argument twice.** With the standard catalogue in the empty store, the edges
    that are read off the drawing are those of all wires of the compound. -/
theorem drawing_strict_iff (h : buildText cs .standard {} Store.empty = .ok k s) :
    ∃ root t, Table.read cs Table.empty = .ok root t ∧ s.wiresWithin k.path = s.wires ∧
      Drawing.edges (s.drawing k.path) = s.wires.map Drawing.wireEnds ∧
      ((Drawing.edges (s.drawing k.path)).Nodup ↔ ∀ id, t.Below root id → (t.args id).Nodup) := by
  obtain ⟨root, t, hread, hwithin, hedges, hnodup⟩ :=
    edges_of_buildText Drawing.isTame_standard (by decide) (by decide) h
  exact ⟨root, t, hread, hwithin, hedges, hedges ▸ hnodup⟩

/-- A variable that two operations use, and a constant. -/
theorem drawing_strict_shared :
    ∃ k s root t, buildText "x*(x+2)".toList .standard {} Store.empty = .ok k s ∧
      Table.read "x*(x+2)".toList Table.empty = .ok root t ∧
      Drawing.edges (s.drawing k.path) = [("/expr/multiply", "/expr.output"),
        ("/expr.x", "/expr/multiply"), ("/expr/add", "/expr/multiply"),
        ("/expr/float", "/expr/add"), ("/expr.x", "/expr/add")] ∧
      ∀ id, t.Below root id → (t.args id).Nodup := by
  have hcheck : (match buildText "x*(x+2)".toList .standard {} Store.empty with
      | .ok _ s => decide (s.wires.map Drawing.wireEnds = [("/expr/multiply", "/expr.output"),
          ("/expr.x", "/expr/multiply"), ("/expr/add", "/expr/multiply"),
          ("/expr/float", "/expr/add"), ("/expr.x", "/expr/add")])
      | .error _ _ => false) = true := by decide +kernel
  cases hbuilt : buildText "x*(x+2)".toList .standard {} Store.empty with
  | error failure s =>
    rw [hbuilt] at hcheck
    cases hcheck
  | ok k s =>
    rw [hbuilt] at hcheck
    obtain ⟨root, t, hread, -, hedges, hnodup⟩ := drawing_strict_iff hbuilt
    have hlisted := hedges.trans (of_decide_eq_true hcheck)
    exact ⟨k, s, root, t, rfl, hread, hlisted, hnodup.mp (by rw [hlisted]; decide)⟩

/-- The two wires of a square are one edge in the drawing. -/
theorem drawing_square_merged :
    ∃ k s, buildText "x*x".toList .standard {} Store.empty = .ok k s ∧
      (s.wiresWithin k.path).map (fun w => (w.source, w.target)) =
        [("/expr/multiply.output", "/expr.output"), ("/expr.x", "/expr/multiply.input"),
          ("/expr.x", "/expr/multiply.input_1")] ∧
      Drawing.edges (s.drawing k.path) = [("/expr/multiply", "/expr.output"),
        ("/expr.x", "/expr/multiply"), ("/expr.x", "/expr/multiply")] ∧
      ¬ (Drawing.edges (s.drawing k.path)).Nodup := by
  have hcheck : (match buildText "x*x".toList .standard {} Store.empty with
      | .ok k s => decide ((s.wiresWithin k.path).map (fun w => (w.source, w.target)) =
          [("/expr/multiply.output", "/expr.output"), ("/expr.x", "/expr/multiply.input"),
            ("/expr.x", "/expr/multiply.input_1")] ∧
          s.wires.map Drawing.wireEnds = [("/expr/multiply", "/expr.output"),
            ("/expr.x", "/expr/multiply"), ("/expr.x", "/expr/multiply")])
      | .error _ _ => false) = true := by decide +kernel
  cases hbuilt : buildText "x*x".toList .standard {} Store.empty with
  | error failure s =>
    rw [hbuilt] at hcheck
    cases hcheck
  | ok k s =>
    rw [hbuilt] at hcheck
    obtain ⟨hwires, hends⟩ := of_decide_eq_true hcheck
    obtain ⟨root, t, -, -, hedges, -⟩ :=
      edges_of_buildText Drawing.isTame_standard (by decide) (by decide) hbuilt
    have hlisted := hedges.trans hends
    exact ⟨k, s, rfl, hwires, hlisted, by rw [hlisted]; decide⟩

end

end FormulaGraph
