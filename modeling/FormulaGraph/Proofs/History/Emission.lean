/-
  File:      FormulaGraph/Proofs/History/Emission.lean
  Subject:   Building a plan under other ids.

  An emission looks up nodes by their ids and writes no id into the store. A renamed plan is built
  by the same calls, so long as no step asks for a node that is not there: only then is an id told,
  in the failure. A compiled plan has no such step.

  * `Scoped` -- a step names only nodes that an earlier step makes;
  * `scoped_compile` -- compiled plans are scoped;
  * `emit_rename` -- a scoped plan and the renamed one end in the same store.
-/
import FormulaGraph.Proofs.Emission.Copy
import FormulaGraph.Proofs.History.Renaming

namespace FormulaGraph

variable {ρ : Nat → Nat}

/-! ## 1. Keys with other names -/

namespace Assoc

variable {κ μ α : Type} [DecidableEq κ] [DecidableEq μ] {f : κ → μ}

/-- The entries under other keys. -/
def renameKeys (f : κ → μ) (entries : List (κ × α)) : List (μ × α) :=
  entries.map fun entry => (f entry.1, entry.2)

theorem lookup_renameKeys (hf : Function.Injective f) (key : κ) (entries : List (κ × α)) :
    (renameKeys f entries).lookup (f key) = entries.lookup key := by
  induction entries with
  | nil => rfl
  | cons entry rest ih =>
    have hkeys : (f key == f entry.1) = (key == entry.1) := by
      rw [Bool.eq_iff_iff, beq_iff_eq, beq_iff_eq, hf.eq_iff]
    show List.lookup (f key) ((f entry.1, entry.2) :: renameKeys f rest) = _
    rw [List.lookup_cons, hkeys, ih]
    rfl

theorem put_renameKeys (hf : Function.Injective f) (key : κ) (value : α)
    (entries : List (κ × α)) :
    put (f key) value (renameKeys f entries) = renameKeys f (put key value entries) := by
  induction entries with
  | nil => rfl
  | cons entry rest ih =>
    show put (f key) value ((f entry.1, entry.2) :: renameKeys f rest) = _
    unfold put
    rw [ih]
    by_cases hk : entry.1 = key
    · rw [if_pos (congrArg f hk), if_pos hk]
      rfl
    · rw [if_neg fun h => hk (hf h), if_neg hk]
      rfl

end Assoc

/-! ## 2. Scoped plans -/

/-- The expression at an end of a wire. -/
def Endpoint.exprs : Endpoint → List Nat
  | node expr => [expr]
  | _ => []

namespace BuildStep

/-- The expressions whose nodes a step needs. -/
def needs : BuildStep → List Nat
  | setLiteralValue expr _ => [expr]
  | connect _ source target => source.exprs ++ target.exprs
  | _ => []

/-- The expressions whose nodes a step makes. -/
def makes : BuildStep → List Nat
  | createNode expr _ => [expr]
  | _ => []

/-- Every step needs only nodes that have been made before. -/
def Scoped : (made : List Nat) → List BuildStep → Prop
  | _, [] => True
  | made, step :: steps => (∀ id ∈ step.needs, id ∈ made) ∧ Scoped (step.makes ++ made) steps

variable {made : List Nat} {steps more : List BuildStep}

theorem scoped_of_forall (h : ∀ step ∈ steps, ∀ id ∈ step.needs, id ∈ made) :
    Scoped made steps := by
  induction steps generalizing made with
  | nil => trivial
  | cons step steps ih =>
    obtain ⟨hstep, hsteps⟩ := List.forall_mem_cons.mp h
    exact ⟨hstep, ih fun other ho id hid => List.mem_append_right _ (hsteps other ho id hid)⟩

theorem Scoped.append (h : Scoped made steps)
    (hmore : ∀ made' : List Nat, (∀ id ∈ made, id ∈ made') →
      (∀ step ∈ steps, ∀ id ∈ step.makes, id ∈ made') → Scoped made' more) :
    Scoped made (steps ++ more) := by
  induction steps generalizing made with
  | nil => exact hmore made (fun _ hid => hid) nofun
  | cons step steps ih =>
    refine ⟨h.1, ih h.2 fun made' hold hnew => hmore made' ?_ ?_⟩
    · exact fun id hid => hold id (List.mem_append_right _ hid)
    · exact List.forall_mem_cons.mpr ⟨fun id hid => hold id (List.mem_append_left _ hid), hnew⟩

end BuildStep

namespace Table

open BuildStep (Scoped)

variable {t : Table} {root : Nat} {c : Catalogue} {nodes : List PlannedNode}
  {all : List (Nat × Node)}

/-- The nodes at the wires of an expression are below its root, and are no symbols. -/
theorem needs_wireSteps (ht : t.Ordered) {step : BuildStep} (hs : step ∈ t.wireSteps root)
    {id : Nat} (hid : id ∈ step.needs) : t.Below root id ∧ t.symbolName? id = none := by
  unfold wireSteps at hs
  split at hs
  · rw [List.mem_singleton.mp hs] at hid
    cases hid
  · rename_i hroot
    obtain ⟨link, hl, rfl⟩ := List.mem_map.mp hs
    unfold linksOf at hl
    rw [hroot] at hl
    rcases List.mem_cons.mp hl with rfl | hl
    · obtain rfl : id = root := List.mem_singleton.mp hid
      exact ⟨.root, hroot⟩
    · obtain ⟨⟨source, target⟩, hu, rfl⟩ := List.mem_map.mp hl
      obtain ⟨hb, ha⟩ := (mem_uses_iff ht).mp hu
      -- a symbol has no arguments, so the operation is none
      have htarget : t.symbolName? target = none := by
        cases hn : t.symbolName? target with
        | none => rfl
        | some name =>
          rw [args_of_symbolName? hn] at ha
          cases ha
      unfold linkOf at hid
      split at hid
      · obtain rfl : id = target := List.mem_singleton.mp hid
        exact ⟨hb, htarget⟩
      · rename_i hsource
        rcases List.mem_pair.mp hid with rfl | rfl
        · exact ⟨hb.arg ha, hsource⟩
        · exact ⟨hb, htarget⟩

/-- What is planned for an expression needs no node but its own. -/
theorem scoped_steps {id : Nat} {node : Node} {n : PlannedNode} (h : planNode c id node = .ok n)
    (made : List Nat) : Scoped made n.steps ∧
      (node.kind?.isSome = true → ∃ step ∈ n.steps, id ∈ step.makes) := by
  rcases planNode_ok_cases h with ⟨name, rfl, rfl⟩ | ⟨kind, type, hk, -, rfl, hport, htype, -⟩
  · exact ⟨⟨nofun, trivial⟩, nofun⟩
  · rw [PlannedNode.steps_of_type hport htype]
    refine ⟨⟨nofun, BuildStep.scoped_of_forall fun step hs id hid => ?_⟩,
      fun _ => ⟨_, List.mem_cons_self, List.mem_cons_self⟩⟩
    obtain ⟨value, -, rfl⟩ := Option.map_eq_some_iff.mp (Option.mem_toList.mp hs)
    rw [List.mem_singleton.mp hid]
    exact List.mem_cons_self

theorem scoped_nodes (h : List.Forall₂ (fun d n => planNode c d.1 d.2 = .ok n) all nodes)
    (made : List Nat) : Scoped made (nodes.flatMap PlannedNode.steps) := by
  induction h generalizing made with
  | nil => trivial
  | cons hd _ ih =>
    rw [List.flatMap_cons]
    exact (scoped_steps hd made).1.append fun made' _ _ => ih made'

theorem makes_nodes (h : List.Forall₂ (fun d n => planNode c d.1 d.2 = .ok n) all nodes) {id : Nat}
    {node : Node} (hm : (id, node) ∈ all) (hk : node.kind?.isSome = true) :
    ∃ step ∈ nodes.flatMap PlannedNode.steps, id ∈ step.makes := by
  induction h with
  | nil => cases hm
  | @cons d n all nodes hd _ ih =>
    rw [List.flatMap_cons]
    rcases List.mem_cons.mp hm with rfl | hm
    · obtain ⟨step, hs, hid⟩ := (scoped_steps hd []).2 hk
      exact ⟨step, List.mem_append_left _ hs, hid⟩
    · obtain ⟨step, hs, hid⟩ := ih hm
      exact ⟨step, List.mem_append_right _ hs, hid⟩

/-- **A compiled plan asks for no node that it has not made.** -/
theorem scoped_compile (ht : t.Ordered) (hr : root < t.size) {o : CompoundOptions} {p : Plan}
    (h : t.compile root c o = .ok p) : Scoped [] p.steps := by
  obtain ⟨nodes, hplan, rfl⟩ := compile_ok h
  refine ⟨nofun, nofun, (scoped_nodes hplan _).append fun made _ hmade => ?_⟩
  refine BuildStep.scoped_of_forall fun step hs id hid => ?_
  obtain ⟨hb, hsymbol⟩ := needs_wireSteps ht hs hid
  obtain ⟨node, hn⟩ := exists_node (hb.lt_size ht hr)
  have hkind : node.kind?.isSome = true := by
    unfold symbolName? at hsymbol
    rw [hn] at hsymbol
    cases node with
    | symbol name => cases hsymbol
    | literal value => rfl
    | operation op args => rfl
  obtain ⟨step, hs, hid⟩ := makes_nodes hplan ((mem_creations_iff ht).mpr ⟨hb, hn⟩) hkind
  exact hmade step hs id hid

end Table

/-! ## 3. Emissions under other ids -/

/-- A compound whose nodes are listed under other ids. -/
def Compound.rename (ρ : Nat → Nat) (c : Compound) : Compound :=
  { c with nodes := Assoc.renameKeys ρ c.nodes }

namespace Emission

variable {e e' : Emission} {s s' : Store} {step : BuildStep}

def rename (ρ : Nat → Nat) (e : Emission) : Emission :=
  { e with nodes := Assoc.renameKeys ρ e.nodes }

/-- The node of an expression has been made. -/
def Has (e : Emission) (id : Nat) : Prop := (e.nodes.lookup id).isSome = true

theorem nodeOf_rename (hρ : Function.Injective ρ) {id : Nat} (h : e.Has id) (call : StoreCall) :
    (e.rename ρ).nodeOf call (ρ id) = e.nodeOf call id := by
  obtain ⟨path, hp⟩ := Option.isSome_iff_exists.mp h
  unfold nodeOf rename
  rw [Assoc.lookup_renameKeys hρ, hp]
  rfl

theorem endOf_rename (hρ : Function.Injective ρ) {endpoint : Endpoint}
    (h : ∀ id ∈ endpoint.exprs, e.Has id) :
    (e.rename ρ).endOf (endpoint.rename ρ) = e.endOf endpoint := by
  cases endpoint with
  | node expr =>
    show (PortRef.node <$> (e.rename ρ).nodeOf .connect (ρ expr) : EmissionM PortRef) = _
    rw [nodeOf_rename hρ (h expr List.mem_cons_self)]
    rfl
  | compoundInput name => rfl
  | compoundOutput name => rfl

/-- **A step under other ids makes the same calls.** -/
theorem take_rename (hρ : Function.Injective ρ) (h : ∀ id ∈ step.needs, e.Has id) :
    (e.rename ρ).take (step.rename ρ) = rename ρ <$> e.take step := by
  cases step with
  | createCompound parent name =>
    unfold take
    rw [map_bind]
    exact bind_congr fun path => (map_pure _ _).symm
  | createOutputPort name =>
    unfold take
    rw [map_bind]
    refine bind_congr fun compound => ?_
    rw [map_bind]
    exact bind_congr fun port => (map_pure _ _).symm
  | createInputPort name skipExisting =>
    unfold take
    rw [map_bind]
    refine bind_congr fun compound => ?_
    rw [map_bind]
    refine bind_congr fun port => ?_
    show (if (e.inputPorts.lookup name).isSome then _ else _) = _
    split <;> exact (map_pure _ _).symm
  | createNode expr type =>
    unfold take
    rw [map_bind]
    refine bind_congr fun compound => ?_
    rw [map_bind]
    refine bind_congr fun path => ?_
    rw [map_pure]
    show (pure
      { e with journal := _, nodes := Assoc.put (ρ expr) path (Assoc.renameKeys ρ e.nodes) } :
      EmissionM Emission) = _
    rw [Assoc.put_renameKeys hρ]
    rfl
  | setLiteralValue expr value =>
    unfold take
    rw [map_bind]
    show ((e.rename ρ).nodeOf .setLiteralValue (ρ expr) >>= _) = _
    rw [nodeOf_rename hρ (h expr List.mem_cons_self)]
    refine bind_congr fun node => ?_
    rw [map_bind]
    exact bind_congr fun _ => (map_pure _ _).symm
  | connect kind source target =>
    have hsource := endOf_rename hρ fun id hid => h id (List.mem_append_left _ hid)
    have htarget := endOf_rename hρ fun id hid => h id (List.mem_append_right _ hid)
    unfold take
    rw [map_bind]
    refine bind_congr fun compound => ?_
    show ((e.rename ρ).endOf (source.rename ρ) >>= _) = _
    rw [map_bind, hsource]
    refine bind_congr fun start => ?_
    show ((e.rename ρ).endOf (target.rename ρ) >>= _) = _
    rw [map_bind, htarget]
    refine bind_congr fun stop => ?_
    rw [map_bind]
    exact bind_congr fun _ => (map_pure _ _).symm

/-- A step keeps the nodes that have been made, and makes its own. -/
theorem Taken.has (h : Taken e s step e' s') {id : Nat} (hid : e.Has id ∨ id ∈ step.makes) :
    e'.Has id := by
  have hsame : ∀ {made : Emission}, step.makes = [] → made.nodes = e.nodes → made.Has id := by
    intro made hnone heq
    rcases hid with hid | hid
    · rwa [Has, heq]
    · rw [hnone] at hid
      cases hid
  cases h with
  | createCompound => exact hsame rfl rfl
  | createOutputPort => exact hsame rfl rfl
  | createInputPort =>
    refine hsame rfl ?_
    unfold withInput
    split <;> rfl
  | @createNode expr type compound path _ made call =>
    show ((Assoc.put expr path e.nodes).lookup id).isSome = true
    rw [Assoc.lookup_put]
    split
    · rfl
    · rename_i hne
      exact hid.resolve_right fun hm => hne (List.mem_singleton.mp hm)
  | setLiteralValue => exact hsame rfl rfl
  | connect => exact hsame rfl rfl

theorem run_rename (hρ : Function.Injective ρ) : ∀ {steps : List BuildStep} {made : List Nat}
    {e : Emission} {s : Store}, BuildStep.Scoped made steps → (∀ id ∈ made, e.Has id) →
    run (e.rename ρ) (steps.map (BuildStep.rename ρ)) s =
      ((run e steps s).1.rename ρ, (run e steps s).2)
  | [], _, _, _, _, _ => rfl
  | step :: steps, made, e, s, hscoped, hmade => by
      have htake : (e.rename ρ).take (step.rename ρ) s = (rename ρ <$> e.take step) s := by
        rw [take_rename hρ fun id hid => hmade id (hscoped.1 id hid)]
      rw [List.map_cons, run, run, htake]
      cases hr : e.take step s with
      | error f s' =>
        have hmap : (rename ρ <$> e.take step) s = .error f s' := by
          show EStateM.map (rename ρ) (e.take step) s = _
          rw [EStateM.map, hr]
        rw [hmap]
      | ok e' s' =>
        have hmap : (rename ρ <$> e.take step) s = .ok (e'.rename ρ) s' := by
          show EStateM.map (rename ρ) (e.take step) s = _
          rw [EStateM.map, hr]
        rw [hmap]
        have htaken := take_ok_iff.mp hr
        refine run_rename hρ hscoped.2 fun id hid => ?_
        rcases List.mem_append.mp hid with hid | hid
        · exact htaken.has (.inr hid)
        · exact htaken.has (.inl (hmade id hid))

theorem finish_rename (ρ : Nat → Nat) (e : Emission) (outputPort : String) :
    (e.rename ρ).finish outputPort = (e.finish outputPort).map (Compound.rename ρ) := by
  have hcompound : (e.rename ρ).compound = e.compound := rfl
  have hports : (e.rename ρ).outputPorts = e.outputPorts := rfl
  unfold finish
  rw [hcompound, hports]
  cases e.compound with
  | none => rfl
  | some path =>
    dsimp only
    cases e.outputPorts.lookup outputPort <;> rfl

end Emission

/-- **A scoped plan and the renamed one are built by the same calls.** They end in the same store,
    with the same failure or with compounds that differ by the ids of their nodes only. -/
theorem Plan.emit_rename (hρ : Function.Injective ρ) {p : Plan}
    (h : BuildStep.Scoped [] p.steps) : (p.rename ρ).emit = Compound.rename ρ <$> p.emit := by
  funext s
  have hrun : Emission.run {} (p.rename ρ).steps s =
      ((Emission.run {} p.steps s).1.rename ρ, (Emission.run {} p.steps s).2) :=
    Emission.run_rename (e := {}) hρ h fun _ hid => absurd hid List.not_mem_nil
  show (p.rename ρ).emit s = EStateM.map (Compound.rename ρ) p.emit s
  unfold EStateM.map Plan.emit
  rw [hrun]
  obtain ⟨e, outcome, s'⟩ := Emission.run {} p.steps s
  have hrollback : ∀ failure, (e.rename ρ).rollback failure s' =
      EStateM.map (Compound.rename ρ) (e.rollback failure) s' := by
    intro failure
    have hjournal : (e.rename ρ).journal = e.journal := rfl
    unfold EStateM.map Emission.rollback
    rw [hjournal]
    obtain ⟨deletion, s''⟩ := Emission.undo e.journal s'
    cases deletion <;> rfl
  cases outcome with
  | some failure => exact hrollback failure
  | none =>
    have hport : (p.rename ρ).outputPort = p.outputPort := rfl
    dsimp only
    rw [hport, Emission.finish_rename]
    cases e.finish p.outputPort with
    | ok compound => rfl
    | error failure => exact hrollback failure

end FormulaGraph
