/-
  File:      FormulaGraph/Proofs/Emission/Taken.lean
  Subject:   What a step of a plan has done, and what a run of steps has done.

  * `Taken` -- the steps that succeed, with the call of the store that each makes;
  * `take_error_cases` -- a step that fails leaves the store as it was, but for a count;
  * `run_error` -- the step at which a run stops, and what had been made before it;
  * `run_induct` -- what every step keeps, a run keeps.
-/
import FormulaGraph.Emission
import FormulaGraph.Proofs.Store.Reachable

namespace FormulaGraph

namespace Emission

variable {e e' : Emission} {s s' : Store}

/-! ## 1. Calls and lookups -/

theorem calling_ok_iff {α : Type} {call : StoreCall} {target : String} {action : StoreM α} {a : α} :
    calling call target action s = .ok a s' ↔ action s = .ok a s' := by
  unfold calling
  cases action s <;> simp

theorem calling_error {α : Type} {call : StoreCall} {target : String} {action : StoreM α}
    {f : Failure} (h : calling call target action s = .error f s') :
    ∃ cause, f = .store call target cause ∧ action s = .error cause s' := by
  unfold calling at h
  split at h
  · cases h
  · rename_i cause s₁ ha
    cases h
    exact ⟨cause, rfl, ha⟩

theorem require_ok_iff {α : Type} {call : StoreCall} {target : String} {found : Option α} {a : α} :
    require call target found s = .ok a s' ↔ found = some a ∧ s' = s := by
  cases found with
  | none =>
    constructor
    · intro h
      cases h
    · rintro ⟨h, _⟩
      cases h
  | some b =>
    constructor
    · intro h
      cases h
      exact ⟨rfl, rfl⟩
    · rintro ⟨h, rfl⟩
      cases h
      rfl

theorem require_error {α : Type} {call : StoreCall} {target : String} {found : Option α}
    {f : Failure} (h : require call target found s = .error f s') : s' = s := by
  cases found with
  | none =>
    cases h
    rfl
  | some a => cases h

/-- What the end of a planned wire stands for so far. -/
def portRef? (e : Emission) : Endpoint → Option PortRef
  | .node expr => (e.nodes.lookup expr).map .node
  | .compoundInput name => (e.inputPorts.lookup name).map .compoundInput
  | .compoundOutput name => (e.outputPorts.lookup name).map .compoundOutput

theorem endOf_eq (e : Emission) (endpoint : Endpoint) :
    ∃ target, e.endOf endpoint = require .connect target (e.portRef? endpoint) := by
  cases endpoint with
  | node expr =>
    refine ⟨s!"#{expr}", ?_⟩
    show nodeOf e .connect expr >>= _ = require _ _ ((e.nodes.lookup expr).map PortRef.node)
    unfold nodeOf
    cases e.nodes.lookup expr <;> rfl
  | compoundInput name =>
    refine ⟨name, ?_⟩
    show require .connect name (e.inputPorts.lookup name) >>= _
      = require _ _ ((e.inputPorts.lookup name).map PortRef.compoundInput)
    cases e.inputPorts.lookup name <;> rfl
  | compoundOutput name =>
    refine ⟨name, ?_⟩
    show require .connect name (e.outputPorts.lookup name) >>= _
      = require _ _ ((e.outputPorts.lookup name).map PortRef.compoundOutput)
    cases e.outputPorts.lookup name <;> rfl

theorem endOf_ok_iff {endpoint : Endpoint} {ref : PortRef} :
    e.endOf endpoint s = .ok ref s' ↔ e.portRef? endpoint = some ref ∧ s' = s := by
  obtain ⟨target, h⟩ := endOf_eq e endpoint
  rw [h, require_ok_iff]

theorem endOf_error {endpoint : Endpoint} {f : Failure}
    (h : e.endOf endpoint s = .error f s') : s' = s := by
  obtain ⟨target, he⟩ := endOf_eq e endpoint
  rw [he] at h
  exact require_error h

/-! ## 2. Steps that succeed -/

/-- The emission with one more input port, listed once for each name. -/
def withInput (e : Emission) (name port : String) : Emission :=
  if (e.inputPorts.lookup name).isSome then e
  else { e with inputPorts := e.inputPorts ++ [(name, port)] }

/-- A step that has been taken, and the call that it made. -/
inductive Taken (e : Emission) (s : Store) : BuildStep → Emission → Store → Prop where
  | createCompound {parent name path : String} {s' : Store}
      (call : Store.createCompound parent name s = .ok path s') :
      Taken e s (.createCompound parent name)
        { e with journal := path :: e.journal, compound := some path } s'
  | createOutputPort {name compound port : String} {s' : Store}
      (made : e.compound = some compound)
      (call : Store.createOutputPort compound name s = .ok port s') :
      Taken e s (.createOutputPort name)
        { e with outputPorts := e.outputPorts ++ [(name, port)] } s'
  | createInputPort {name compound port : String} {skip : Bool} {s' : Store}
      (made : e.compound = some compound)
      (call : Store.createInputPort compound name skip s = .ok port s') :
      Taken e s (.createInputPort name skip) (e.withInput name port) s'
  | createNode {expr : Nat} {type : NodeType} {compound path : String} {s' : Store}
      (made : e.compound = some compound)
      (call : Store.createNode compound type s = .ok path s') :
      Taken e s (.createNode expr type)
        { e with journal := path :: e.journal, nodes := Assoc.put expr path e.nodes } s'
  | setLiteralValue {expr : Nat} {value : Float} {node : String} {s' : Store}
      (made : e.nodes.lookup expr = some node)
      (call : Store.setLiteralValue node value s = .ok () s') :
      Taken e s (.setLiteralValue expr value) e s'
  | connect {kind : WireKind} {source target : Endpoint} {compound : String}
      {start stop : PortRef} {s' : Store} (made : e.compound = some compound)
      (source_eq : e.portRef? source = some start) (target_eq : e.portRef? target = some stop)
      (call : Store.connect compound start stop kind s = .ok () s') :
      Taken e s (.connect kind source target) e s'

theorem theCompound_ok_iff {call : StoreCall} {compound : String} :
    e.theCompound call s = .ok compound s' ↔ e.compound = some compound ∧ s' = s :=
  require_ok_iff

theorem nodeOf_ok_iff {call : StoreCall} {expr : Nat} {node : String} :
    e.nodeOf call expr s = .ok node s' ↔ e.nodes.lookup expr = some node ∧ s' = s :=
  require_ok_iff

theorem take_ok_iff {step : BuildStep} : e.take step s = .ok e' s' ↔ Taken e s step e' s' := by
  constructor
  · intro h
    cases step with
    | createCompound parent name =>
      obtain ⟨path, s₁, hc, h₁⟩ := bindM_ok_iff.mp h
      cases h₁
      exact .createCompound (calling_ok_iff.mp hc)
    | createOutputPort name =>
      obtain ⟨compound, s₁, hm₀, h₁⟩ := bindM_ok_iff.mp h
      obtain ⟨hm, rfl⟩ := theCompound_ok_iff.mp hm₀
      obtain ⟨port, s₂, hc, h₂⟩ := bindM_ok_iff.mp h₁
      cases h₂
      exact .createOutputPort hm (calling_ok_iff.mp hc)
    | createInputPort name skip =>
      obtain ⟨compound, s₁, hm₀, h₁⟩ := bindM_ok_iff.mp h
      obtain ⟨hm, rfl⟩ := theCompound_ok_iff.mp hm₀
      obtain ⟨port, s₂, hc, h₂⟩ := bindM_ok_iff.mp h₁
      have he : e' = e.withInput name port ∧ s' = s₂ := by
        unfold withInput
        split at h₂ <;> (cases h₂; simp_all)
      obtain ⟨rfl, rfl⟩ := he
      exact .createInputPort hm (calling_ok_iff.mp hc)
    | createNode expr type =>
      obtain ⟨compound, s₁, hm₀, h₁⟩ := bindM_ok_iff.mp h
      obtain ⟨hm, rfl⟩ := theCompound_ok_iff.mp hm₀
      obtain ⟨path, s₂, hc, h₂⟩ := bindM_ok_iff.mp h₁
      cases h₂
      exact .createNode hm (calling_ok_iff.mp hc)
    | setLiteralValue expr value =>
      obtain ⟨node, s₁, hm₀, h₁⟩ := bindM_ok_iff.mp h
      obtain ⟨hm, rfl⟩ := nodeOf_ok_iff.mp hm₀
      obtain ⟨u, s₂, hc, h₂⟩ := bindM_ok_iff.mp h₁
      cases h₂
      exact .setLiteralValue hm (calling_ok_iff.mp hc)
    | connect kind source target =>
      obtain ⟨compound, s₁, hm₀, h₁⟩ := bindM_ok_iff.mp h
      obtain ⟨hm, rfl⟩ := theCompound_ok_iff.mp hm₀
      obtain ⟨start, s₂, hs₀, h₂⟩ := bindM_ok_iff.mp h₁
      obtain ⟨hs, rfl⟩ := endOf_ok_iff.mp hs₀
      obtain ⟨stop, s₃, ht₀, h₃⟩ := bindM_ok_iff.mp h₂
      obtain ⟨ht, rfl⟩ := endOf_ok_iff.mp ht₀
      obtain ⟨u, s₄, hc, h₄⟩ := bindM_ok_iff.mp h₃
      cases h₄
      exact .connect hm hs ht (calling_ok_iff.mp hc)
  · intro h
    cases h with
    | createCompound call =>
      exact bindM_ok_iff.mpr ⟨_, _, calling_ok_iff.mpr call, rfl⟩
    | createOutputPort made call =>
      exact bindM_ok_iff.mpr ⟨_, _, theCompound_ok_iff.mpr ⟨made, rfl⟩,
        bindM_ok_iff.mpr ⟨_, _, calling_ok_iff.mpr call, rfl⟩⟩
    | @createInputPort name compound port skip _ made call =>
      refine bindM_ok_iff.mpr ⟨_, _, theCompound_ok_iff.mpr ⟨made, rfl⟩,
        bindM_ok_iff.mpr ⟨_, _, calling_ok_iff.mpr call, ?_⟩⟩
      unfold withInput
      split <;> rfl
    | createNode made call =>
      exact bindM_ok_iff.mpr ⟨_, _, theCompound_ok_iff.mpr ⟨made, rfl⟩,
        bindM_ok_iff.mpr ⟨_, _, calling_ok_iff.mpr call, rfl⟩⟩
    | setLiteralValue made call =>
      exact bindM_ok_iff.mpr ⟨_, _, nodeOf_ok_iff.mpr ⟨made, rfl⟩,
        bindM_ok_iff.mpr ⟨_, _, calling_ok_iff.mpr call, rfl⟩⟩
    | connect made source_eq target_eq call =>
      exact bindM_ok_iff.mpr ⟨_, _, theCompound_ok_iff.mpr ⟨made, rfl⟩,
        bindM_ok_iff.mpr ⟨_, _, endOf_ok_iff.mpr ⟨source_eq, rfl⟩,
          bindM_ok_iff.mpr ⟨_, _, endOf_ok_iff.mpr ⟨target_eq, rfl⟩,
            bindM_ok_iff.mpr ⟨_, _, calling_ok_iff.mpr call, rfl⟩⟩⟩⟩

/-! ## 3. Steps that fail -/

/-- The call of the store that a step makes. -/
def callOf : BuildStep → StoreCall
  | .createCompound .. => .createCompound
  | .createOutputPort .. => .createOutputPort
  | .createInputPort .. => .createInputPort
  | .createNode .. => .createNode
  | .setLiteralValue .. => .setLiteralValue
  | .connect .. => .connect

theorem callOf_ne_deleteNode (step : BuildStep) : callOf step ≠ .deleteNode := by
  intro h
  cases step <;> cases h

/-- A step that fails leaves the store as it was, or has counted its call. -/
theorem take_error_cases {step : BuildStep} {f : Failure}
    (h : e.take step s = .error f s') : s' = s ∨ s' = s.counted (callOf step) := by
  have hcall : ∀ {α : Type} {call : StoreCall} {target : String}
      {work : Store → Except StoreError (α × Store)},
      calling call target (Store.perform call work) s = .error f s' → s' = s.counted call := by
    intro α call target work hc
    obtain ⟨cause, _, hc⟩ := calling_error hc
    exact Store.perform_error hc
  cases step with
  | createCompound parent name =>
    rcases bindM_error_iff.mp h with hc | ⟨_, _, _, h₁⟩
    · exact .inr (hcall hc)
    · cases h₁
  | createOutputPort name =>
    rcases bindM_error_iff.mp h with hm₀ | ⟨_, _, hm₀, h₁⟩
    · exact .inl (require_error hm₀)
    · obtain ⟨_, rfl⟩ := theCompound_ok_iff.mp hm₀
      rcases bindM_error_iff.mp h₁ with hc | ⟨_, _, _, h₂⟩
      · exact .inr (hcall hc)
      · cases h₂
  | createInputPort name skip =>
    rcases bindM_error_iff.mp h with hm₀ | ⟨_, _, hm₀, h₁⟩
    · exact .inl (require_error hm₀)
    · obtain ⟨_, rfl⟩ := theCompound_ok_iff.mp hm₀
      rcases bindM_error_iff.mp h₁ with hc | ⟨_, _, _, h₂⟩
      · exact .inr (hcall hc)
      · split at h₂ <;> cases h₂
  | createNode expr type =>
    rcases bindM_error_iff.mp h with hm₀ | ⟨_, _, hm₀, h₁⟩
    · exact .inl (require_error hm₀)
    · obtain ⟨_, rfl⟩ := theCompound_ok_iff.mp hm₀
      rcases bindM_error_iff.mp h₁ with hc | ⟨_, _, _, h₂⟩
      · exact .inr (hcall hc)
      · cases h₂
  | setLiteralValue expr value =>
    rcases bindM_error_iff.mp h with hm₀ | ⟨_, _, hm₀, h₁⟩
    · exact .inl (require_error hm₀)
    · obtain ⟨_, rfl⟩ := nodeOf_ok_iff.mp hm₀
      rcases bindM_error_iff.mp h₁ with hc | ⟨_, _, _, h₂⟩
      · exact .inr (hcall hc)
      · cases h₂
  | connect kind source target =>
    rcases bindM_error_iff.mp h with hm₀ | ⟨_, _, hm₀, h₁⟩
    · exact .inl (require_error hm₀)
    · obtain ⟨_, rfl⟩ := theCompound_ok_iff.mp hm₀
      rcases bindM_error_iff.mp h₁ with hs₀ | ⟨_, _, hs₀, h₂⟩
      · exact .inl (endOf_error hs₀)
      · obtain ⟨_, rfl⟩ := endOf_ok_iff.mp hs₀
        rcases bindM_error_iff.mp h₂ with ht₀ | ⟨_, _, ht₀, h₃⟩
        · exact .inl (endOf_error ht₀)
        · obtain ⟨_, rfl⟩ := endOf_ok_iff.mp ht₀
          rcases bindM_error_iff.mp h₃ with hc | ⟨_, _, _, h₄⟩
          · exact .inr (hcall hc)
          · cases h₄

/-! ## 4. Runs of steps -/

theorem run_cons_of_taken {step : BuildStep} {steps : List BuildStep}
    (h : Taken e s step e' s') : run e (step :: steps) s = run e' steps s' := by
  rw [run, take_ok_iff.mpr h]

/-- A run stops at the first step that fails; the steps before it were taken. -/
theorem run_error {steps : List BuildStep} {f : Failure} (h : run e steps s = (e', some f, s')) :
    ∃ before step after s₁, steps = before ++ step :: after ∧
      run e before s = (e', none, s₁) ∧ e'.take step s₁ = .error f s' := by
  induction steps generalizing e s with
  | nil => cases h
  | cons step steps ih =>
    unfold run at h
    split at h
    · rename_i e₁ s₁ ht
      obtain ⟨before, stop, after, s₂, rfl, hr, hf⟩ := ih h
      refine ⟨step :: before, stop, after, s₂, rfl, ?_, hf⟩
      rw [run_cons_of_taken (take_ok_iff.mp ht), hr]
    · rename_i f' s₁ ht
      cases h
      exact ⟨[], step, steps, s, rfl, rfl, ht⟩

/-- **What every step that is taken keeps, a run of steps keeps.** -/
theorem run_induct {P : Emission → Store → Prop} {Q : BuildStep → Prop}
    (hstep : ∀ e s step e' s', Q step → P e s → Taken e s step e' s' → P e' s') :
    ∀ {steps : List BuildStep} {e e' : Emission} {s s' : Store}, (∀ step ∈ steps, Q step) → P e s →
      run e steps s = (e', none, s') → P e' s'
  | [], _, _, _, _, _, hp, h => by
      cases h
      exact hp
  | step :: steps, e, e', s, s', hq, hp, h => by
      unfold run at h
      split at h
      · rename_i e₁ s₁ ht
        have hp₁ := hstep e s step e₁ s₁ (hq step List.mem_cons_self) hp (take_ok_iff.mp ht)
        exact run_induct hstep (fun st hs => hq st (List.mem_cons_of_mem _ hs)) hp₁ h
      · cases h

end Emission

end FormulaGraph
