/-
  File:      FormulaGraph/Proofs/Emission/Wiring.lean
  Subject:   Wiring the nodes of a compound.

  The second part of a compiled plan connects the root to the output port and every argument to the
  operation that uses it. A wire goes to the first port of its target that has none, so the order of
  the arguments is carried by the order of the wires alone. `Wired` says what is there after the
  first so many uses: an operation has one wire for each of its arguments so far, at its first
  ports.

  * `targetPort_next` -- where the next wire of a node goes;
  * `Wired.addWire`, `Wired.use` -- one more wire;
  * `wire` -- the wires of the whole expression.
-/
import FormulaGraph.Proofs.Emission.Populate

namespace FormulaGraph

open Store

/-! ## 1. The ports of a node -/

/-- A node that had `b` ports at first and has got `n` wires has ports enough for both. -/
def portsAfter (n b : Nat) : List String := (List.range (max n b)).map addedInput

/-- **The next wire to a node goes to its first port without a wire**, which is made if need be. -/
theorem targetPort_next {s : Store} {compound path : String} {r : Record} {n b : Nat}
    (within : isWithin compound path = true) (found : s.record? path = some r)
    (hports : r.inputs = portsAfter n b)
    (hd : ∀ j, s.isDriven (portPath path (addedInput j)) = decide (j < n)) :
    ∃ s', TargetPort s compound (.node path) (portPath path (addedInput n)) s' ∧
      s'.record? path = some { r with inputs := portsAfter (n + 1) b } ∧
      (∀ other, other ≠ path → s'.record? other = s.record? other) ∧
      s'.wires = s.wires ∧ s'.driven = s.driven := by
  by_cases hn : n < b
  · -- the port has been there from the start
    have hmax : portsAfter (n + 1) b = r.inputs := by
      rw [hports, portsAfter, portsAfter, Nat.max_eq_right hn, Nat.max_eq_right (Nat.le_of_lt hn)]
    refine ⟨s, .free within found ?_, ?_, fun _ _ => rfl, rfl, rfl⟩
    · rw [hports, portsAfter, List.find?_map, Option.map_eq_some_iff]
      refine ⟨n, List.find?_range_eq_some.mpr ⟨?_, ?_, fun j hj => ?_⟩, rfl⟩
      · simp [hd]
      · exact List.mem_range.mpr (by omega)
      · simp [hd, hj]
    · rw [hmax]
      exact found
  · have hle : b ≤ n := Nat.le_of_not_lt hn
    have hlen : r.inputs.length = n := by
      rw [hports, portsAfter, List.length_map, List.length_range, Nat.max_eq_left hle]
    have hfull : ∀ q ∈ r.inputs, s.isDriven (portPath path q) = true := by
      intro q hq
      rw [hports] at hq
      obtain ⟨j, hj, rfl⟩ := List.mem_map.mp hq
      rw [List.mem_range, Nat.max_eq_left hle] at hj
      rw [hd, decide_eq_true hj]
    have hadd : TargetPort s compound (.node path) (portPath path (addedInput n))
        (s.addInput path (addedInput n)) := hlen ▸ .added within found hfull
    refine ⟨_, hadd, ?_, fun other ho => ?_, rfl, rfl⟩
    · rw [addInput, record?_updateRecord, if_pos rfl, found, Option.map_some, hports, portsAfter,
        portsAfter, Nat.max_eq_left hle, Nat.max_eq_left (Nat.le_succ_of_le hle), List.range_succ,
        List.map_append]
      rfl
    · rw [addInput, record?_updateRecord, if_neg ho]

/-! ## 2. What the wires of an expression run between -/

namespace Table

/-- The end of a planned wire that the value of an expression comes from. -/
def sourceEnd (t : Table) (id : Nat) : Endpoint :=
  match t.symbolName? id with
  | some name => .compoundInput name
  | none => .node id

/-- The kind of the wires from an expression to the operations that use it. -/
def useKind (t : Table) (id : Nat) : WireKind :=
  match t.symbolName? id with
  | some _ => .symbolToInput
  | none => .nodeToNode

/-- The kind of the wire from an expression to the output port. -/
def outKind (t : Table) (id : Nat) : WireKind :=
  match t.symbolName? id with
  | some _ => .inputToOutput
  | none => .nodeToOutput

/-- The port that the value of an expression comes from: the input port of a symbol, or the output
    of a node. -/
def sourcePort? (t : Table) (inputs : List (String × String)) (nodes : List (Nat × String))
    (id : Nat) : Option String :=
  match t.symbolName? id with
  | some name => inputs.lookup name
  | none => (nodes.lookup id).map (portPath · outputName)

/-- The step that connects an argument to the operation that uses it. -/
def useStep (t : Table) (use : Nat × Nat) : BuildStep :=
  .connect (t.useKind use.1) (t.sourceEnd use.1) (.node use.2)

theorem step_linkOf (t : Table) (source target : Nat) :
    (t.linkOf source target).step = t.useStep (source, target) := by
  unfold linkOf useStep useKind sourceEnd
  cases t.symbolName? source <;> rfl

theorem args_of_symbolName? {t : Table} {id : Nat} {name : String}
    (h : t.symbolName? id = some name) : t.args id = [] := by
  unfold symbolName? at h
  split at h
  · rename_i hn
    rw [args, hn]
    rfl
  · cases h

/-- Below a symbol there is nothing to wire. -/
theorem uses_of_symbolName? {t : Table} (ht : t.Ordered) {root : Nat} {name : String}
    (h : t.symbolName? root = some name) : t.uses root = [] := by
  have hargs := args_of_symbolName? h
  have hbelow : ∀ id, t.Below root id → id = root := by
    intro id hb
    induction hb with
    | root => rfl
    | arg _ ha ih =>
      rw [ih, hargs] at ha
      cases ha
  rw [List.eq_nil_iff_forall_not_mem]
  rintro ⟨arg, id⟩ hm
  obtain ⟨hb, ha⟩ := (mem_uses_iff ht).mp hm
  rw [hbelow id hb, hargs] at ha
  cases ha

/-- The wires of an expression: one to the output port, and one for each use of an argument. -/
theorem wireSteps_eq {t : Table} (ht : t.Ordered) (root : Nat) :
    t.wireSteps root =
      .connect (t.outKind root) (t.sourceEnd root) (.compoundOutput outputPortName) ::
        (t.uses root).map t.useStep := by
  unfold wireSteps linksOf
  cases h : t.symbolName? root with
  | some name =>
    rw [uses_of_symbolName? ht h]
    simp [outKind, sourceEnd, h]
  | none =>
    simp only [List.map_cons, List.map_map, outKind, sourceEnd, h, Link.step]
    refine congrArg _ (List.map_congr_left fun use _ => ?_)
    exact t.step_linkOf use.1 use.2

end Table

/-! ## 3. Paths of nodes -/

namespace Populated

variable {c : Catalogue} {s₀ s : Store} {parent k : String} {done : List (Nat × Node)}
  {e : Emission} {id : Nat} {path : String}

/-- What was made for the expressions stands at paths of its own. -/
theorem nodup_journal (h : Populated c s₀ parent k done e s) (hs₀ : Sound s₀) :
    e.journal.Nodup := by
  have hn := h.made.sound.nodup
  rw [h.made.added.order_eq hs₀ h.made.sound] at hn
  exact List.nodup_reverse.mp (List.nodup_append.mp hn).2.1

theorem path_ne (h : Populated c s₀ parent k done e s) (hs₀ : Sound s₀)
    (hl : e.nodes.lookup id = some path) : path ≠ k := by
  have hn := h.nodup_journal hs₀
  rw [h.journal, List.nodup_append] at hn
  exact hn.2.2 path (List.mem_reverse.mpr (List.mem_map_of_mem (Assoc.mem_of_lookup hl))) k
    (List.mem_singleton_self k)

theorem lookup_inj (h : Populated c s₀ parent k done e s) (hs₀ : Sound s₀) {other : Nat}
    (hl : e.nodes.lookup id = some path) (hl' : e.nodes.lookup other = some path) : id = other := by
  have hn := h.nodup_journal hs₀
  rw [h.journal, List.nodup_append, List.nodup_reverse] at hn
  have := List.inj_on_of_nodup_map hn.1 (Assoc.mem_of_lookup hl) (Assoc.mem_of_lookup hl') rfl
  exact congrArg Prod.fst this

/-- The record of every node. -/
theorem record_of_lookup (h : Populated c s₀ parent k done e s)
    (hl : e.nodes.lookup id = some path) : ∃ node kind type name, (id, node) ∈ done ∧
      node.kind? = some kind ∧ c.resolve? kind = some type ∧
      s.record? path = some (copyRecord k node type name) := by
  have hm : id ∈ e.nodes.map Prod.fst := List.mem_map_of_mem (Assoc.mem_of_lookup hl)
  rw [h.keys] at hm
  obtain ⟨⟨_, node⟩, hd, rfl⟩ := List.mem_map.mp hm
  obtain ⟨hd, hk⟩ := List.mem_filter.mp hd
  obtain ⟨kind, hk⟩ := Option.isSome_iff_exists.mp hk
  obtain ⟨path', type, name, hl', hres, hrec⟩ := h.nodes _ node kind hd hk
  rw [hl] at hl'
  cases hl'
  exact ⟨node, kind, type, name, hd, hk, hres, hrec⟩

theorem isWithin_of_lookup (h : Populated c s₀ parent k done e s)
    (hl : e.nodes.lookup id = some path) : isWithin k path = true := by
  obtain ⟨node, kind, type, name, _, _, _, hrec⟩ := h.record_of_lookup hl
  have hs := h.made.sound
  obtain ⟨hp, hseg, _⟩ := hs.placed _ _ hrec
  rw [hp]
  exact (isWithin_childPath (hs.path_ne_empty h.isSome_record?) (hs.path_ne_root h.isSome_record?)
    hseg.2).trans (covers_self k)

end Populated

section

variable {t : Table} {root : Nat} {c : Catalogue} {s₀ sC s : Store} {parent k : String}
  {e : Emission} {id : Nat}

/-- Every expression below the root that is no symbol has a node. -/
theorem Populated.lookup_of_below (h : Populated c s₀ parent k (t.creations root) e sC)
    (ht : t.Ordered) (hr : root < t.size) (hb : t.Below root id) (hs : t.symbolName? id = none) :
    ∃ path, e.nodes.lookup id = some path := by
  obtain ⟨node, hn⟩ := Option.isSome_iff_exists.mp (Table.isSome_node?_iff.mpr (hb.lt_size ht hr))
  have hm := (Table.mem_creations_iff ht).mpr ⟨hb, hn⟩
  have hk : ∃ kind, node.kind? = some kind := by
    cases node with
    | symbol name =>
      rw [Table.symbolName?, hn] at hs
      cases hs
    | literal value => exact ⟨_, rfl⟩
    | operation op args => exact ⟨_, rfl⟩
  obtain ⟨kind, hk⟩ := hk
  obtain ⟨path, _, _, hl, _⟩ := h.nodes id node kind hm hk
  exact ⟨path, hl⟩

theorem node?_of_symbolName? {name : String} (h : t.symbolName? id = some name) :
    t.node? id = some (.symbol name) := by
  unfold Table.symbolName? at h
  split at h
  · rename_i hn
    cases h
    exact hn
  · cases h

theorem mem_symbolsOf_creations (ht : t.Ordered) {name : String} :
    name ∈ symbolsOf (t.creations root) ↔
      ∃ id, t.Below root id ∧ t.symbolName? id = some name := by
  rw [symbolsOf, List.mem_eraseDups, List.mem_filterMap]
  constructor
  · rintro ⟨⟨id, node⟩, hm, hs⟩
    obtain ⟨hb, hn⟩ := (Table.mem_creations_iff ht).mp hm
    cases node with
    | symbol other =>
      cases hs
      exact ⟨id, hb, by rw [Table.symbolName?, hn]⟩
    | literal value => cases hs
    | operation op args => cases hs
  · rintro ⟨id, hb, hs⟩
    exact ⟨(id, .symbol name), (Table.mem_creations_iff ht).mpr ⟨hb, node?_of_symbolName? hs⟩, rfl⟩

/-! ## 4. The invariant -/

/-- **The compound after the wire to its output port and the wires of the uses `used`**: an
    operation has at its first ports one wire for each of its arguments so far, in their order. `sC`
    is the store before any wire. -/
structure Wired (t : Table) (root : Nat) (k : String) (s₀ sC : Store) (e : Emission)
    (used : List (Nat × Nat)) (s : Store) : Prop where
  made : Made s₀ e s
  record : s.record? k = sC.record? k
  nodes : ∀ id path, e.nodes.lookup id = some path → ∃ r, sC.record? path = some r ∧
    s.record? path =
      some { r with inputs := portsAfter (Table.argsUsed used id).length r.inputs.length }
  driven : ∀ id path, e.nodes.lookup id = some path → ∀ j,
    s.isDriven (portPath path (addedInput j)) = decide (j < (Table.argsUsed used id).length)
  wires : ∀ id path, e.nodes.lookup id = some path → ∀ j arg,
    (Table.argsUsed used id)[j]? = some arg → ∃ source,
      t.sourcePort? e.inputPorts e.nodes arg = some source ∧
      s.wiresTo (portPath path (addedInput j)) =
        [⟨source, portPath path (addedInput j), t.useKind arg⟩]
  free : ∀ id path, e.nodes.lookup id = some path → ∀ j, (Table.argsUsed used id).length ≤ j →
    s.wiresTo (portPath path (addedInput j)) = []
  output : ∃ source, t.sourcePort? e.inputPorts e.nodes root = some source ∧
    s.wiresTo (portPath k outputPortName) = [⟨source, portPath k outputPortName, t.outKind root⟩]
  accounted : ∀ w ∈ s.wires, w ∈ s₀.wires ∨ w.target = portPath k outputPortName ∨
    ∃ id path j, e.nodes.lookup id = some path ∧ j < (Table.argsUsed used id).length ∧
      w.target = portPath path (addedInput j)

/-- Every expression below the root has a port that its value comes from, whatever wires its nodes
    have got since. -/
theorem Populated.source (h : Populated c s₀ parent k (t.creations root) e sC) (ht : t.Ordered)
    (hr : root < t.size) (hb : t.Below root id) (hk : s.record? k = sC.record? k)
    (hn : ∀ id path, e.nodes.lookup id = some path →
      ∃ r inputs, sC.record? path = some r ∧ s.record? path = some { r with inputs := inputs }) :
    ∃ ref source, e.portRef? (t.sourceEnd id) = some ref ∧ SourcePort s k ref source ∧
      t.sourcePort? e.inputPorts e.nodes id = some source ∧
      (∀ path, fits (t.useKind id) ref (.node path) = true) ∧
      ∀ port, fits (t.outKind id) ref (.compoundOutput port) = true := by
  unfold Table.sourceEnd Table.sourcePort? Table.useKind Table.outKind
  cases hs : t.symbolName? id with
  | some name =>
    obtain ⟨own, hrec⟩ := h.record
    have hm := (mem_symbolsOf_creations ht).mpr ⟨id, hb, hs⟩
    have hl : e.inputPorts.lookup name = some (portPath k name) := by
      rw [h.inputPorts, lookup_map_portPath, if_pos hm]
    refine ⟨.compoundInput (portPath k name), portPath k name, ?_, ?_, hl, fun _ => rfl,
      fun _ => rfl⟩
    · show (e.inputPorts.lookup name).map _ = _
      rw [hl]
      rfl
    · exact .input (hk.trans hrec) rfl hm
  | none =>
    obtain ⟨path, hl⟩ := h.lookup_of_below ht hr hb hs
    obtain ⟨node, kind, type, name, _, _, _, hrec⟩ := h.record_of_lookup hl
    obtain ⟨r, inputs, hrC, hrs⟩ := hn id path hl
    rw [hrec] at hrC
    cases hrC
    refine ⟨.node path, portPath path outputName, ?_, .node (h.isWithin_of_lookup hl) hrs rfl, ?_,
      fun _ => rfl, fun _ => rfl⟩
    · show (e.nodes.lookup id).map _ = _
      rw [hl]
      rfl
    · show (e.nodes.lookup id).map _ = _
      rw [hl]
      rfl

theorem argsUsed_concat (used : List (Nat × Nat)) (arg id other : Nat) :
    Table.argsUsed (used ++ [(arg, id)]) other =
      Table.argsUsed used other ++ if id = other then [arg] else [] := by
  have h := Table.argsUsed_block [arg] id other
  rw [Table.argsUsed_append, ← h]
  rfl

/-- The number of wires that an operation has got, with one more use of an argument. -/
theorem length_argsUsed_concat (used : List (Nat × Nat)) (arg id other : Nat) :
    (Table.argsUsed (used ++ [(arg, id)]) other).length =
      (Table.argsUsed used other).length + if id = other then 1 else 0 := by
  rw [argsUsed_concat, List.length_append]
  split <;> rfl

/-- An argument that has been used was so before, or it is the one used last. -/
theorem getElem?_argsUsed_concat {used : List (Nat × Nat)} {arg id other j a : Nat}
    (h : (Table.argsUsed (used ++ [(arg, id)]) other)[j]? = some a) :
    j < (Table.argsUsed used other).length ∧ (Table.argsUsed used other)[j]? = some a ∨
      id = other ∧ j = (Table.argsUsed used other).length ∧ a = arg := by
  rw [argsUsed_concat] at h
  by_cases hlt : j < (Table.argsUsed used other).length
  · rw [List.getElem?_append_left hlt] at h
    exact .inl ⟨hlt, h⟩
  · rw [List.getElem?_append_right (Nat.le_of_not_lt hlt)] at h
    obtain ⟨hlen, h⟩ := List.getElem?_eq_some_iff.mp h
    by_cases hid : id = other
    · simp only [hid, if_true, List.length_singleton, List.getElem_singleton] at hlen h
      exact .inr ⟨hid, by omega, h.symm⟩
    · rw [if_neg hid] at hlen
      cases hlen

/-- Ports of nodes are told apart by the expression and the number of the port. -/
theorem Populated.port_eq_iff (h : Populated c s₀ parent k (t.creations root) e sC)
    (hs₀ : Sound s₀) {other i j : Nat} {path path' : String}
    (hl : e.nodes.lookup id = some path) (hl' : e.nodes.lookup other = some path') :
    portPath path (addedInput i) = portPath path' (addedInput j) ↔ id = other ∧ i = j := by
  have hplain := h.made.reach.plainPaths
  have hmem := fun {id path} (hl : e.nodes.lookup id = some path) =>
    hplain path (h.made.added.mem_order hs₀ h.made.sound (h.made.nodes id path hl))
  rw [portPath_inj (hmem hl) (hmem hl'), addedInput_injective.eq_iff]
  constructor
  · rintro ⟨rfl, rfl⟩
    exact ⟨h.lookup_inj hs₀ hl hl', rfl⟩
  · rintro ⟨rfl, rfl⟩
    rw [hl] at hl'
    cases hl'
    exact ⟨rfl, rfl⟩

/-- The output port of the compound is no port of a node. -/
theorem Populated.port_ne_output (h : Populated c s₀ parent k (t.creations root) e sC)
    (hs₀ : Sound s₀) {path name port : String} (hl : e.nodes.lookup id = some path) :
    portPath path name ≠ portPath k port := by
  have hplain := h.made.reach.plainPaths
  have hpath := hplain path (h.made.added.mem_order hs₀ h.made.sound (h.made.nodes id path hl))
  have hk := hplain k (h.made.added.mem_order hs₀ h.made.sound (h.made.compound k h.compound))
  intro he
  exact h.path_ne hs₀ hl ((portPath_inj hpath hk).mp he).1

/-! ## 5. One wire after another -/

/-- The wire from the root to the output port. -/
theorem Populated.connectRoot (h : Populated c s₀ parent k (t.creations root) e sC)
    (hs₀ : Sound s₀) (ht : t.Ordered) (hr : root < t.size) (hcall : sC.refuses .connect = false) :
    ∃ s', e.Taken sC (.connect (t.outKind root) (t.sourceEnd root) (.compoundOutput outputPortName))
      e s' ∧ Wired t root k s₀ sC e [] s' := by
  have hadd := h.made.added
  have hsound := h.made.sound
  have hplain := h.made.reach.plainPaths
  have hkj := h.made.compound k h.compound
  obtain ⟨own, hrec⟩ := h.record
  obtain ⟨ref, source, href, hsource, hsp, _, hfits⟩ := h.source (s := sC.counted .connect) ht hr
    (.root) rfl fun id path hl => by
      obtain ⟨node, kind, type, name, _, _, _, hrec⟩ := h.record_of_lookup hl
      exact ⟨_, _, hrec, hrec⟩
  have hidle : ∀ path name, path ∈ e.journal → sC.isDriven (portPath path name) = false := by
    intro path name hp
    rw [isDriven, h.driven, List.contains_eq_mem, decide_eq_false_iff_not]
    exact hadd.notMem_driven hs₀ hsound hplain hp
  have hnone : ∀ path name, path ∈ e.journal → sC.wiresTo (portPath path name) = [] := by
    intro path name hp
    rw [wiresTo, h.wires, List.filter_eq_nil_iff]
    intro w hw
    simpa using hadd.target_ne hs₀ hsound hplain hp hw
  have htarget : TargetPort (sC.counted .connect) k
      (.compoundOutput (portPath k outputPortName)) (portPath k outputPortName)
      (sC.counted .connect) :=
    .output hrec rfl List.mem_cons_self (hidle k outputPortName hkj)
  have htaken : e.Taken sC
      (.connect (t.outKind root) (t.sourceEnd root) (.compoundOutput outputPortName)) e
      ((sC.counted .connect).addWire ⟨source, portPath k outputPortName, t.outKind root⟩) := by
    refine .connect h.compound href ?_
      (connect_ok_iff.mpr
        ⟨hcall, hfits (portPath k outputPortName), _, _, _, hsource, htarget, rfl⟩)
    show (e.outputPorts.lookup outputPortName).map _ = _
    rw [h.outputPorts]
    simp
  have hnames : BuildStep.Names IsPlain
      (.connect (t.outKind root) (t.sourceEnd root) (.compoundOutput outputPortName)) := trivial
  refine ⟨_, htaken, h.made.taken hnames htaken, rfl, ?_, ?_, ?_, ?_, ⟨source, hsp, ?_⟩, ?_⟩
  · intro id path hl
    obtain ⟨node, kind, type, name, _, _, _, hr'⟩ := h.record_of_lookup hl
    refine ⟨_, hr', ?_⟩
    show sC.record? path = _
    rw [hr']
    -- the first ports of a node have the names that added ports would have
    unfold copyRecord nodeRecord portsAfter
    split <;> rfl
  · intro id path hl j
    rw [isDriven_addWire]
    have hd : (sC.counted .connect).isDriven (portPath path (addedInput j)) = false :=
      hidle path _ (h.made.nodes id path hl)
    rw [hd, beq_false_of_ne (h.port_ne_output hs₀ hl)]
    rfl
  · intro id path hl j arg hj
    cases hj
  · intro id path hl j _
    rw [wiresTo_addWire, if_neg (h.port_ne_output hs₀ hl).symm, List.append_nil]
    exact hnone path _ (h.made.nodes id path hl)
  · rw [wiresTo_addWire, if_pos rfl]
    exact congrArg (· ++ _) (hnone k _ hkj)
  · intro w hw
    rcases List.mem_append.mp hw with hw | hw
    · exact .inl (h.wires ▸ hw)
    · rw [List.mem_singleton.mp hw]
      exact .inr (.inl rfl)

/-- **The wire of one more use**, where it goes to the first port without a wire: `s₁` is the store
    with that port, which may be a new one. -/
theorem Wired.addWire {used : List (Nat × Nat)} (hw : Wired t root k s₀ sC e used s)
    (h : Populated c s₀ parent k (t.creations root) e sC) (hs₀ : Sound s₀) {arg : Nat}
    {path source : String} {r : Record} {s₁ : Store} (hl : e.nodes.lookup id = some path)
    (hsp : t.sourcePort? e.inputPorts e.nodes arg = some source) (hrC : sC.record? path = some r)
    (hrec : s₁.record? path = some { r with
      inputs := portsAfter ((Table.argsUsed used id).length + 1) r.inputs.length })
    (hothers : ∀ other, other ≠ path → s₁.record? other = s.record? other)
    (hwires : s₁.wires = s.wires) (hdriven : s₁.driven = s.driven)
    (hmade : Made s₀ e (s₁.addWire
      ⟨source, portPath path (addedInput (Table.argsUsed used id).length), t.useKind arg⟩)) :
    Wired t root k s₀ sC e (used ++ [(arg, id)]) (s₁.addWire
      ⟨source, portPath path (addedInput (Table.argsUsed used id).length), t.useKind arg⟩) := by
  have hdriven₁ : ∀ port, s₁.isDriven port = s.isDriven port := fun port => by
    rw [isDriven, hdriven]
    rfl
  have hwires₁ : ∀ port, s₁.wiresTo port = s.wiresTo port := fun port => by
    rw [wiresTo, hwires]
    rfl
  refine
    { made := hmade, record := (hothers k (h.path_ne hs₀ hl).symm).trans hw.record, nodes := ?_,
      driven := ?_, wires := ?_, free := ?_, output := ?_, accounted := ?_ }
  · intro other p hp
    rw [length_argsUsed_concat]
    by_cases ho : id = other
    · subst ho
      rw [hl] at hp
      cases hp
      rw [if_pos rfl]
      exact ⟨r, hrC, hrec⟩
    · obtain ⟨r', hrC', hrs'⟩ := hw.nodes other p hp
      have hne : p ≠ path := fun he => ho (h.lookup_inj hs₀ hl (he ▸ hp))
      rw [if_neg ho]
      exact ⟨r', hrC', (hothers p hne).trans hrs'⟩
  · intro other p hp j
    rw [isDriven_addWire, hdriven₁, hw.driven other p hp, length_argsUsed_concat, Bool.eq_iff_iff]
    simp only [Bool.or_eq_true, decide_eq_true_iff, beq_iff_eq, h.port_eq_iff hs₀ hp hl]
    by_cases ho : id = other
    · subst ho
      simp only [true_and, if_pos]
      omega
    · simp [ho, Ne.symm ho]
  · intro other p hp j arg' hj
    rw [wiresTo_addWire, hwires₁]
    rcases getElem?_argsUsed_concat hj with ⟨hlt, hj⟩ | ⟨rfl, rfl, rfl⟩
    · have hne : portPath path (addedInput (Table.argsUsed used id).length) ≠
          portPath p (addedInput j) := fun he => by
        obtain ⟨rfl, rfl⟩ := (h.port_eq_iff hs₀ hl hp).mp he
        exact Nat.lt_irrefl _ hlt
      rw [if_neg hne, List.append_nil]
      exact hw.wires other p hp j arg' hj
    · -- the new wire is the only one at its port
      rw [hl] at hp
      cases hp
      rw [if_pos rfl, hw.free id path hl _ (Nat.le_refl _)]
      exact ⟨source, hsp, rfl⟩
  · intro other p hp j hj
    rw [length_argsUsed_concat] at hj
    have hne : portPath path (addedInput (Table.argsUsed used id).length) ≠
        portPath p (addedInput j) := fun he => by
      obtain ⟨rfl, rfl⟩ := (h.port_eq_iff hs₀ hl hp).mp he
      rw [if_pos rfl] at hj
      exact absurd hj (Nat.not_succ_le_self _)
    rw [wiresTo_addWire, if_neg hne, List.append_nil, hwires₁]
    exact hw.free other p hp j (by omega)
  · obtain ⟨out, hout, hfilter⟩ := hw.output
    refine ⟨out, hout, ?_⟩
    rw [wiresTo_addWire, if_neg (h.port_ne_output hs₀ hl), List.append_nil, hwires₁]
    exact hfilter
  · intro w hm
    rcases List.mem_append.mp hm with hm | hm
    · rw [hwires] at hm
      rcases hw.accounted w hm with hold | hout | ⟨other, p, j, hp, hj, he⟩
      · exact .inl hold
      · exact .inr (.inl hout)
      · refine .inr (.inr ⟨other, p, j, hp, ?_, he⟩)
        rw [length_argsUsed_concat]
        omega
    · rw [List.mem_singleton.mp hm]
      refine .inr (.inr ⟨id, path, (Table.argsUsed used id).length, hl, ?_, rfl⟩)
      rw [length_argsUsed_concat, if_pos rfl]
      exact Nat.lt_succ_self _

/-- **One more use of an argument is wired.** -/
theorem Wired.use {used : List (Nat × Nat)} (hw : Wired t root k s₀ sC e used s)
    (h : Populated c s₀ parent k (t.creations root) e sC) (hs₀ : Sound s₀) (ht : t.Ordered)
    (hr : root < t.size) {arg : Nat} (hb : t.Below root id) (ha : arg ∈ t.args id)
    (hcall : s.refuses .connect = false) :
    ∃ s', e.Taken s (t.useStep (arg, id)) e s' ∧
      Wired t root k s₀ sC e (used ++ [(arg, id)]) s' := by
  have hsym : t.symbolName? id = none := by
    rw [Option.eq_none_iff_forall_ne_some]
    intro name hs
    rw [Table.args_of_symbolName? hs] at ha
    cases ha
  obtain ⟨path, hl⟩ := h.lookup_of_below ht hr hb hsym
  have hkept : ∀ other p, e.nodes.lookup other = some p → ∃ r inputs, sC.record? p = some r ∧
      (s.counted .connect).record? p = some { r with inputs := inputs } := by
    intro other p hp
    obtain ⟨r, hrC, hrs⟩ := hw.nodes other p hp
    exact ⟨r, _, hrC, hrs⟩
  obtain ⟨ref, source, href, hsource, hsp, hfits, _⟩ :=
    h.source (s := s.counted .connect) ht hr (hb.arg ha) hw.record hkept
  obtain ⟨r, hrC, hrs⟩ := hw.nodes id path hl
  obtain ⟨s₁, htarget, hrec, hothers, hwires, hdriven⟩ :=
    targetPort_next (s := s.counted .connect) (h.isWithin_of_lookup hl) hrs rfl
      (hw.driven id path hl)
  have htaken : e.Taken s (t.useStep (arg, id)) e (s₁.addWire ⟨source,
      portPath path (addedInput (Table.argsUsed used id).length), t.useKind arg⟩) := by
    refine .connect h.compound href ?_
      (connect_ok_iff.mpr ⟨hcall, hfits path, _, _, _, hsource, htarget, rfl⟩)
    show (e.nodes.lookup id).map _ = _
    rw [hl]
    rfl
  have hnames : BuildStep.Names IsPlain (t.useStep (arg, id)) := trivial
  exact ⟨_, htaken, hw.addWire h hs₀ hl hsp hrC hrec hothers hwires hdriven
    (hw.made.taken hnames htaken)⟩

/-- **All wires of the expression are made.** -/
theorem wire (h : Populated c s₀ parent k (t.creations root) e sC) (hs₀ : Sound s₀)
    (ht : t.Ordered) (hr : root < t.size) (ha : sC.Allows (t.wireSteps root)) :
    ∃ s', e.run (t.wireSteps root) sC = (e, none, s') ∧
      Wired t root k s₀ sC e (t.uses root) s' := by
  rw [Table.wireSteps_eq ht] at ha ⊢
  obtain ⟨s₁, htaken, hstart⟩ := h.connectRoot hs₀ ht hr ha.refuses
  have ha₁ := ha.taken htaken
  have hflat : (t.uses root).map t.useStep = (t.uses root).flatMap fun use => [t.useStep use] :=
    List.map_eq_flatMap
  rw [Emission.run_cons_of_taken htaken, hflat]
  rw [hflat] at ha₁
  obtain ⟨e₂, s₂, hrun, rfl, hwired⟩ := Emission.run_loop (t.uses root) (fun use => [t.useStep use])
    (fun used e' s => e' = e ∧ Wired t root k s₀ sC e used s)
    (fun used use rest e' s hall hi ha => by
      obtain ⟨rfl, hi⟩ := hi
      have hm : (use.1, use.2) ∈ t.uses root := by
        rw [hall]
        exact List.mem_append_right _ List.mem_cons_self
      obtain ⟨hb, harg⟩ := (Table.mem_uses_iff ht).mp hm
      obtain ⟨s', htaken, hw⟩ := hi.use h hs₀ ht hr hb harg ha.refuses
      exact ⟨e', s', Emission.run_cons_of_taken htaken, rfl, hw⟩)
    _ [] e s₁ rfl ⟨rfl, hstart⟩ ha₁
  exact ⟨s₂, hrun, hwired⟩

end

end FormulaGraph
