/-
  File:      FormulaGraph/Proofs/Emission/Made.lean
  Subject:   What an emission has added to a store.

  While the steps of a plan are taken, the store grows at its end only: the nodes that the journal
  names, and wires and driven ports at those nodes. What was there before keeps its place and its
  contents.

  * `Added` -- the store is an older one with more at its end, all of it at named nodes;
  * `Made` -- what holds of an emission between two steps;
  * `Made.taken`, `Made.run` -- every step keeps it, and so does a run.
-/
import FormulaGraph.Proofs.Emission.Taken

namespace FormulaGraph

open Store

/-- The names that a step gives to compounds and nodes are of a kind. -/
def BuildStep.Names (ok : String → Prop) : BuildStep → Prop
  | .createCompound _ name => ok name
  | .createNode _ type => ok type.shortName
  | _ => True

/-- The names that a plan gives to compounds and nodes are of a kind. -/
def Plan.Names (p : Plan) (ok : String → Prop) : Prop := ∀ step ∈ p.steps, step.Names ok

instance (ok : String → Prop) [DecidablePred ok] (step : BuildStep) : Decidable (step.Names ok) :=
  match step with
  | .createCompound _ name => inferInstanceAs (Decidable (ok name))
  | .createNode _ type => inferInstanceAs (Decidable (ok type.shortName))
  | .createOutputPort _ => isTrue trivial
  | .createInputPort _ _ => isTrue trivial
  | .setLiteralValue _ _ => isTrue trivial
  | .connect _ _ _ => isTrue trivial

instance (p : Plan) (ok : String → Prop) [DecidablePred ok] : Decidable (p.Names ok) :=
  inferInstanceAs (Decidable (∀ step ∈ p.steps, step.Names ok))

/-! ## 1. A store with more at its end -/

/-- All of a graph is still there unchanged, perhaps with more after it. -/
structure StillThere (s s' : Store) : Prop where
  records : s.records <+: s'.records
  order : s.order <+: s'.order
  wires : s.wires <+: s'.wires
  driven : s.driven <+: s'.driven
  focus : s'.focus = s.focus

/-- A port of one of some nodes. -/
def AtNodes (paths : List String) (port : String) : Prop :=
  ∃ path ∈ paths, ∃ name, port = portPath path name

theorem AtNodes.cons {paths : List String} {port : String} (h : AtNodes paths port)
    (path : String) : AtNodes (path :: paths) port := by
  obtain ⟨other, hm, name, he⟩ := h
  exact ⟨other, List.mem_cons_of_mem _ hm, name, he⟩

/-- A store that has grown by the nodes at `paths`, the latest first, and by wires at them. -/
structure Added (s₀ : Store) (paths : List String) (s : Store) : Prop where
  records : ∃ new, s.records = s₀.records ++ new ∧ new.map Prod.fst = paths.reverse
  wires : ∃ new, s.wires = s₀.wires ++ new ∧
    ∀ w ∈ new, AtNodes paths w.source ∧ AtNodes paths w.target
  driven : ∃ new, s.driven = s₀.driven ++ new ∧ ∀ port ∈ new, AtNodes paths port
  focus : s.focus = s₀.focus
  faults : s.faults = s₀.faults
  /-- Nothing has been deleted on the way. -/
  deletes : s.calls .deleteNode = s₀.calls .deleteNode

namespace Added

variable {s₀ s : Store} {paths : List String}

theorem refl (s : Store) : Added s [] s where
  records := ⟨[], by simp⟩
  wires := ⟨[], by simp⟩
  driven := ⟨[], by simp⟩
  focus := rfl
  faults := rfl
  deletes := rfl

theorem counted (h : Added s₀ paths s) {call : StoreCall} (hc : call ≠ .deleteNode) :
    Added s₀ paths (s.counted call) :=
  ⟨h.records, h.wires, h.driven, h.focus, h.faults,
    (calls_counted_of_ne (Ne.symm hc)).trans h.deletes⟩

theorem order_eq (h : Added s₀ paths s) (hs₀ : Sound s₀) (hs : Sound s) :
    s.order = s₀.order ++ paths.reverse := by
  obtain ⟨new, hr, hk⟩ := h.records
  rw [hs.order_eq, hs₀.order_eq, hr, List.map_append, hk]

theorem stillThere (h : Added s₀ paths s) (hs₀ : Sound s₀) (hs : Sound s) : StillThere s₀ s where
  records := by
    obtain ⟨new, hr, _⟩ := h.records
    exact ⟨new, hr.symm⟩
  order := ⟨_, (h.order_eq hs₀ hs).symm⟩
  wires := by
    obtain ⟨new, hw, _⟩ := h.wires
    exact ⟨new, hw.symm⟩
  driven := by
    obtain ⟨new, hd, _⟩ := h.driven
    exact ⟨new, hd.symm⟩
  focus := h.focus

theorem isSome_record? (h : Added s₀ paths s) {path : String} (hp : path ∈ paths) :
    (s.record? path).isSome := by
  obtain ⟨new, hr, hk⟩ := h.records
  refine Assoc.isSome_lookup_iff.mpr ?_
  rw [hr, List.map_append, hk]
  exact List.mem_append_right _ (List.mem_reverse.mpr hp)

/-- What has been added was not there. -/
theorem record?_eq_none (h : Added s₀ paths s) (hs : Sound s) {path : String} (hp : path ∈ paths) :
    s₀.record? path = none := by
  obtain ⟨new, hr, hk⟩ := h.records
  have hn := hs.nodup_keys
  rw [hr, List.map_append, hk, List.nodup_append] at hn
  rw [← Option.not_isSome_iff_eq_none, record?, Assoc.isSome_lookup_iff]
  intro hm
  exact hn.2.2 path hm path (List.mem_reverse.mpr hp) rfl

section

variable (h : Added s₀ paths s) (hs₀ : Sound s₀) (hs : Sound s)
include h hs₀ hs

theorem mem_order {path : String} (hp : path ∈ paths) : path ∈ s.order := by
  rw [h.order_eq hs₀ hs]
  exact List.mem_append_right _ (List.mem_reverse.mpr hp)

theorem mem_order_of_old {path : String} (hp : (s₀.record? path).isSome) : path ∈ s.order := by
  rw [h.order_eq hs₀ hs]
  exact List.mem_append_left _ (hs₀.mem_order_iff.mpr hp)

/-- No older wire ends at what was added. -/
theorem target_ne (hplain : PlainPaths s) {path name : String} (hp : path ∈ paths) {w : Wire}
    (hw : w ∈ s₀.wires) : w.target ≠ portPath path name := by
  intro he
  obtain ⟨other, r, m, hr, ht, _⟩ := hs₀.targets w hw
  have hold : (s₀.record? other).isSome := by rw [hr]; rfl
  obtain ⟨rfl, _⟩ := (portPath_inj (hplain other (h.mem_order_of_old hs₀ hs hold))
    (hplain path (h.mem_order hs₀ hs hp))).mp (ht.symm.trans he)
  rw [h.record?_eq_none hs hp] at hr
  cases hr

/-- No port of what was added was driven before. -/
theorem notMem_driven (hplain : PlainPaths s) {path name : String} (hp : path ∈ paths) :
    portPath path name ∉ s₀.driven := by
  intro hm
  obtain ⟨w, hw, ht⟩ := hs₀.driven _ hm
  exact h.target_ne hs₀ hs hplain hp hw ht

end

theorem insert (h : Added s₀ paths s) (hs : Sound s) {container : String} {r : Record}
    (hc : s.hasContainer container = true) (hn : IsSegment r.name) :
    Added s₀ (s.pathFor container r.name :: paths) (s.insert container r).2 where
  records := by
    obtain ⟨new, hr, hk⟩ := h.records
    refine ⟨new ++ [(s.pathFor container r.name,
      { r with name := s.nameFor container r.name })], ?_, ?_⟩
    · rw [hs.records_insert hc hn, hr, List.append_assoc]
    · rw [List.map_append, hk, List.reverse_cons]
      rfl
  wires := by
    obtain ⟨new, hw, ha⟩ := h.wires
    exact ⟨new, hw, fun w hm => ⟨(ha w hm).1.cons _, (ha w hm).2.cons _⟩⟩
  driven := by
    obtain ⟨new, hd, ha⟩ := h.driven
    exact ⟨new, hd, fun port hm => (ha port hm).cons _⟩
  focus := h.focus
  faults := h.faults
  deletes := h.deletes

theorem updateRecord (h : Added s₀ paths s) (hs : Sound s) {path : String} (hp : path ∈ paths)
    (f : Record → Record) : Added s₀ paths (s.updateRecord path f) where
  records := by
    have hfresh := h.record?_eq_none hs hp
    obtain ⟨new, hr, hk⟩ := h.records
    refine ⟨Assoc.modify path f new, ?_, by rw [Assoc.map_fst_modify, hk]⟩
    rw [Store.updateRecord, hr]
    refine Assoc.modify_append_of_notMem ?_ new
    rw [← Assoc.isSome_lookup_iff, ← record?, hfresh]
    simp
  wires := h.wires
  driven := h.driven
  focus := h.focus
  faults := h.faults
  deletes := h.deletes

theorem addWire (h : Added s₀ paths s) {w : Wire} (hs : AtNodes paths w.source)
    (ht : AtNodes paths w.target) : Added s₀ paths (s.addWire w) where
  records := h.records
  wires := by
    obtain ⟨new, hw, ha⟩ := h.wires
    refine ⟨new ++ [w], ?_, fun v hv => ?_⟩
    · rw [Store.addWire, hw, List.append_assoc]
    · rcases List.mem_append.mp hv with hv | hv
      · exact ha v hv
      · rw [List.mem_singleton.mp hv]
        exact ⟨hs, ht⟩
  driven := by
    obtain ⟨new, hd, ha⟩ := h.driven
    by_cases hm : s.driven.contains w.target = true
    · exact ⟨new, by rw [Store.addWire, mark, if_pos hm, hd], ha⟩
    · refine ⟨new ++ [w.target], by rw [Store.addWire, mark, if_neg hm, hd, List.append_assoc], ?_⟩
      intro port hp
      rcases List.mem_append.mp hp with hp | hp
      · exact ha port hp
      · rw [List.mem_singleton.mp hp]
        exact ht
  focus := h.focus
  faults := h.faults
  deletes := h.deletes

end Added

/-! ## 2. Steps make calls with the names of the plan -/

/-- A step that has been taken is a request to the store. -/
theorem Emission.Taken.request {e e' : Emission} {s s' : Store} {step : BuildStep}
    (h : Taken e s step e' s') :
    ∃ q : Request, s' = q.run s ∧ ∀ ok : String → Prop, step.Names ok → q.Names ok := by
  cases h with
  | @createCompound parent name path _ call =>
    exact ⟨.createCompound parent name, by rw [Request.run, call, stateOf], fun _ h => h⟩
  | @createOutputPort name compound _ _ _ call =>
    exact ⟨.createOutputPort compound name, by rw [Request.run, call, stateOf], fun _ h => h⟩
  | @createInputPort name compound _ skip _ _ call =>
    exact ⟨.createInputPort compound name skip, by rw [Request.run, call, stateOf], fun _ h => h⟩
  | @createNode _ type compound _ _ _ call =>
    exact ⟨.createNode compound type, by rw [Request.run, call, stateOf], fun _ h => h⟩
  | @setLiteralValue _ value node _ _ call =>
    exact ⟨.setLiteralValue node value, by rw [Request.run, call, stateOf], fun _ h => h⟩
  | @connect kind _ _ compound start stop _ _ _ _ call =>
    exact ⟨.connect compound start stop kind, by rw [Request.run, call, stateOf], fun _ h => h⟩

theorem Store.Reachable.isSound {s : Store} (h : Reachable IsPlain s) : Sound s :=
  h.sound fun _ hn => hn.isSegment

/-! ## 3. The invariant of an emission -/

/-- **What holds of an emission from `s₀` between two steps.** -/
structure Made (s₀ : Store) (e : Emission) (s : Store) : Prop where
  reach : s.Reachable IsPlain
  added : Added s₀ e.journal s
  compound : ∀ path, e.compound = some path → path ∈ e.journal
  nodes : ∀ expr path, e.nodes.lookup expr = some path → path ∈ e.journal

namespace Made

variable {s₀ s s' : Store} {e e' : Emission}

theorem start (h : s.Reachable IsPlain) : Made s {} s :=
  ⟨h, .refl s, (fun _ hc => nomatch hc), (fun _ _ hn => nomatch hn)⟩

theorem sound (h : Made s₀ e s) : Sound s := h.reach.isSound

theorem source (h : Made s₀ e s) {compound port : String} {source : Endpoint} {ref : PortRef}
    {call : StoreCall} (hc : e.compound = some compound) (he : e.portRef? source = some ref)
    (hp : SourcePort (s.counted call) compound ref port) : AtNodes e.journal port := by
  cases hp with
  | @node path name r within found first =>
    cases source with
    | node expr =>
      obtain ⟨other, hl, hr⟩ := Option.map_eq_some_iff.mp he
      cases hr
      exact ⟨path, h.nodes expr path hl, name, rfl⟩
    | compoundInput name =>
      obtain ⟨_, _, hr⟩ := Option.map_eq_some_iff.mp he
      cases hr
    | compoundOutput name =>
      obtain ⟨_, _, hr⟩ := Option.map_eq_some_iff.mp he
      cases hr
  | @input name r found isCompound listed => exact ⟨compound, h.compound _ hc, name, rfl⟩

/-- The end of a wire: it is at a node that was made, and so is a port that was added for it. -/
theorem target (h : Made s₀ e s) {compound port : String} {target : Endpoint} {ref : PortRef}
    (hc : e.compound = some compound) (he : e.portRef? target = some ref)
    (hp : TargetPort (s.counted .connect) compound ref port s') :
    AtNodes e.journal port ∧ Added s₀ e.journal s' := by
  have hadd : Added s₀ e.journal (s.counted .connect) := h.added.counted (by decide)
  have hnode : ∀ path, ref = .node path → path ∈ e.journal := by
    rintro path rfl
    cases target with
    | node expr =>
      obtain ⟨other, hl, hr⟩ := Option.map_eq_some_iff.mp he
      cases hr
      exact h.nodes expr path hl
    | compoundInput name =>
      obtain ⟨_, _, hr⟩ := Option.map_eq_some_iff.mp he
      cases hr
    | compoundOutput name =>
      obtain ⟨_, _, hr⟩ := Option.map_eq_some_iff.mp he
      cases hr
  cases hp with
  | @free path name r within found first => exact ⟨⟨path, hnode path rfl, name, rfl⟩, hadd⟩
  | @added path r within found full =>
    exact ⟨⟨path, hnode path rfl, _, rfl⟩,
      hadd.updateRecord (h.sound.counted _) (hnode path rfl) _⟩
  | @output name r found isCompound listed idle =>
    exact ⟨⟨compound, h.compound _ hc, name, rfl⟩, hadd⟩

/-- **Every step keeps the invariant.** -/
theorem taken (h : Made s₀ e s) {step : BuildStep} (hn : step.Names IsPlain)
    (ht : e.Taken s step e' s') : Made s₀ e' s' := by
  have hreach : s'.Reachable IsPlain := by
    obtain ⟨q, rfl, hq⟩ := ht.request
    exact h.reach.step q (hq _ hn)
  cases ht with
  | @createCompound parent name path _ call =>
    obtain ⟨_, hc, hi⟩ := createCompound_ok_iff.mp call
    have hcount : Added s₀ e.journal (s.counted .createCompound) := h.added.counted (by decide)
    have ha := hcount.insert (h.sound.counted _) (r := compoundRecord parent name) hc hn.isSegment
    obtain ⟨rfl, rfl⟩ := Prod.mk.inj hi
    refine ⟨hreach, ha, fun p hp => ?_, fun expr p hp => ?_⟩
    · cases hp
      exact List.mem_cons_self
    · exact List.mem_cons_of_mem _ (h.nodes expr p hp)
  | @createOutputPort name compound port _ made call =>
    obtain ⟨_, r, _, _, _, rfl⟩ := createOutputPort_ok_iff.mp call
    exact ⟨hreach, (h.added.counted (by decide)).updateRecord (h.sound.counted _)
      (h.compound _ made) _, h.compound, h.nodes⟩
  | @createInputPort name compound port skip _ made call =>
    have hj : (e.withInput name port).journal = e.journal
        ∧ (e.withInput name port).compound = e.compound
        ∧ (e.withInput name port).nodes = e.nodes := by
      unfold Emission.withInput
      split <;> exact ⟨rfl, rfl, rfl⟩
    obtain ⟨_, r, _, _, ⟨_, _, rfl⟩ | ⟨_, _, rfl⟩⟩ := createInputPort_ok_iff.mp call
    · refine ⟨hreach, ?_, ?_, ?_⟩ <;> simp only [hj]
      · exact h.added.counted (by decide)
      · exact h.compound
      · exact h.nodes
    · refine ⟨hreach, ?_, ?_, ?_⟩ <;> simp only [hj]
      · exact (h.added.counted (by decide)).updateRecord (h.sound.counted _) (h.compound _ made) _
      · exact h.compound
      · exact h.nodes
  | @createNode expr type compound path _ made call =>
    obtain ⟨_, hc, hi⟩ := createNode_ok_iff.mp call
    have hcount : Added s₀ e.journal (s.counted .createNode) := h.added.counted (by decide)
    have ha := hcount.insert (h.sound.counted _) (r := nodeRecord compound type)
      (hasContainer_iff.mpr (.inr hc)) hn.isSegment
    obtain ⟨rfl, rfl⟩ := Prod.mk.inj hi
    refine ⟨hreach, ha, fun p hp => List.mem_cons_of_mem _ (h.compound p hp), fun other p hp => ?_⟩
    rw [Assoc.lookup_put] at hp
    split at hp
    · cases hp
      exact List.mem_cons_self
    · exact List.mem_cons_of_mem _ (h.nodes other p hp)
  | @setLiteralValue expr value node _ made call =>
    obtain ⟨_, r, _, _, rfl⟩ := setLiteralValue_ok_iff.mp call
    exact ⟨hreach, (h.added.counted (by decide)).updateRecord (h.sound.counted _)
      (h.nodes _ _ made) _, h.compound, h.nodes⟩
  | @connect kind source target compound start stop _ made source_eq target_eq call =>
    obtain ⟨_, _, start, stop, s₁, hs, ht, rfl⟩ := connect_ok_iff.mp call
    obtain ⟨hstop, ha⟩ := h.target made target_eq ht
    exact ⟨hreach, ha.addWire (h.source made source_eq hs) hstop, h.compound, h.nodes⟩

/-- **A run of steps keeps the invariant.** -/
theorem run (h : Made s₀ e s) {steps : List BuildStep} (hn : ∀ step ∈ steps, step.Names IsPlain)
    (hr : e.run steps s = (e', none, s')) : Made s₀ e' s' :=
  Emission.run_induct (Q := fun step => step.Names IsPlain)
    (fun _ _ _ _ _ hq hp ht => Made.taken hp hq ht) hn h hr

end Made

end FormulaGraph
