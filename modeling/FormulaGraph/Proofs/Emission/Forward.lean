/-
  File:      FormulaGraph/Proofs/Emission/Forward.lean
  Subject:   Running steps that are allowed to succeed.

  * `Store.Allows` -- no call that a list of steps makes is told to fail;
  * `allows_of_run` -- it goes over to the steps that are still to be taken;
  * `run_append`, `run_loop` -- runs of steps put together, and the loop over a list.
-/
import FormulaGraph.Proofs.Emission.Made

namespace FormulaGraph

open Store

variable {e e' : Emission} {s s' : Store}

/-- None of the calls that the steps make is told to fail. -/
def Store.Allows (s : Store) (steps : List BuildStep) : Prop :=
  ∀ fault ∈ s.faults, fault.2 ≤ s.calls fault.1 ∨
    s.calls fault.1 + steps.countP (Emission.callOf · == fault.1) < fault.2

instance (s : Store) (steps : List BuildStep) : Decidable (s.Allows steps) :=
  inferInstanceAs (Decidable (∀ fault ∈ s.faults, _ ∨ _))

namespace Emission

/-- A step that is taken counts its call. -/
theorem Taken.calls {step : BuildStep} (h : Taken e s step e' s') :
    s'.faults = s.faults ∧ s'.calls = (s.counted (callOf step)).calls := by
  cases h with
  | createCompound call =>
    obtain ⟨_, _, hi⟩ := createCompound_ok_iff.mp call
    obtain ⟨rfl, rfl⟩ := Prod.mk.inj hi
    exact ⟨rfl, rfl⟩
  | createOutputPort made call =>
    obtain ⟨_, r, _, _, _, rfl⟩ := createOutputPort_ok_iff.mp call
    exact ⟨rfl, rfl⟩
  | createInputPort made call =>
    obtain ⟨_, r, _, _, ⟨_, _, rfl⟩ | ⟨_, _, rfl⟩⟩ := createInputPort_ok_iff.mp call <;>
      exact ⟨rfl, rfl⟩
  | createNode made call =>
    obtain ⟨_, _, hi⟩ := createNode_ok_iff.mp call
    obtain ⟨rfl, rfl⟩ := Prod.mk.inj hi
    exact ⟨rfl, rfl⟩
  | setLiteralValue made call =>
    obtain ⟨_, r, _, _, rfl⟩ := setLiteralValue_ok_iff.mp call
    exact ⟨rfl, rfl⟩
  | connect made source_eq target_eq call =>
    obtain ⟨_, _, _, _, s₁, _, ht, rfl⟩ := connect_ok_iff.mp call
    cases ht <;> exact ⟨rfl, rfl⟩

end Emission

/-! ## 1. Steps that are allowed -/

theorem Store.Allows.left {a b : List BuildStep} (h : s.Allows (a ++ b)) : s.Allows a := by
  intro fault hf
  rcases h fault hf with h | h
  · exact .inl h
  · rw [List.countP_append] at h
    exact .inr (by omega)

theorem Store.Allows.refuses {step : BuildStep} {rest : List BuildStep}
    (h : s.Allows (step :: rest)) : s.refuses (Emission.callOf step) = false := by
  rw [Bool.eq_false_iff]
  intro hr
  have hm : (Emission.callOf step, s.calls (Emission.callOf step) + 1) ∈ s.faults := by
    simpa [Store.refuses] using hr
  rcases h _ hm with h | h
  · exact absurd h (Nat.not_succ_le_self _)
  · rw [List.countP_cons_of_pos (by simp)] at h
    simp only at h
    omega

theorem Store.Allows.taken {step : BuildStep} {rest : List BuildStep}
    (h : s.Allows (step :: rest)) (ht : e.Taken s step e' s') : s'.Allows rest := by
  obtain ⟨hf, hc⟩ := ht.calls
  intro fault hm
  rw [hf] at hm
  rw [hc]
  by_cases hcall : Emission.callOf step = fault.1
  · rw [hcall, calls_counted_self]
    rcases h fault hm with h | h
    · exact .inl (by omega)
    · rw [List.countP_cons_of_pos (by simp [hcall])] at h
      exact .inr (by omega)
  · rw [calls_counted_of_ne (Ne.symm hcall)]
    rcases h fault hm with h | h
    · exact .inl h
    · rw [List.countP_cons_of_neg (by simp [hcall])] at h
      exact .inr h

namespace Emission

/-! ## 2. Runs put together -/

theorem run_append {a b : List BuildStep} : ∀ {e : Emission} {s : Store},
    run e a s = (e', none, s') → run e (a ++ b) s = run e' b s' := by
  induction a with
  | nil =>
    intro e s h
    cases h
    rfl
  | cons step steps ih =>
    intro e s h
    unfold run at h
    split at h
    · rename_i e₁ s₁ ht
      rw [List.cons_append, run_cons_of_taken (take_ok_iff.mp ht)]
      exact ih h
    · cases h

theorem allows_of_run {a b : List BuildStep} : ∀ {e : Emission} {s : Store},
    s.Allows (a ++ b) → run e a s = (e', none, s') → s'.Allows b := by
  induction a with
  | nil =>
    intro e s h hr
    cases hr
    exact h
  | cons step steps ih =>
    intro e s h hr
    unfold Emission.run at hr
    split at hr
    · rename_i e₁ s₁ ht
      exact ih (h.taken (take_ok_iff.mp ht)) hr
    · cases hr

/-- **The loop over a list.** If the steps of each member succeed and bring an invariant from the
    members before it to one more member, the steps of all members succeed. -/
theorem run_loop {α : Type} (all : List α) (stepsOf : α → List BuildStep)
    (I : List α → Emission → Store → Prop)
    (hstep : ∀ done a rest e s, all = done ++ a :: rest → I done e s → s.Allows (stepsOf a) →
      ∃ e' s', run e (stepsOf a) s = (e', none, s') ∧ I (done ++ [a]) e' s') :
    ∀ (todo done : List α) (e : Emission) (s : Store), all = done ++ todo → I done e s →
      s.Allows (todo.flatMap stepsOf) →
      ∃ e' s', run e (todo.flatMap stepsOf) s = (e', none, s') ∧ I all e' s'
  | [], done, e, s, hall, hi, _ => by
      rw [List.append_nil] at hall
      exact ⟨e, s, rfl, hall ▸ hi⟩
  | a :: todo, done, e, s, hall, hi, ha => by
      rw [List.flatMap_cons] at ha ⊢
      obtain ⟨e₁, s₁, hr, hi₁⟩ := hstep done a todo e s hall hi ha.left
      obtain ⟨e₂, s₂, hr₂, hi₂⟩ :=
        run_loop all stepsOf I hstep todo (done ++ [a]) e₁ s₁ (by simp [hall]) hi₁
        (allows_of_run ha hr)
      exact ⟨e₂, s₂, (run_append hr).trans hr₂, hi₂⟩

end Emission

/-- A plan whose steps all succeed gives the compound that was made. -/
theorem Plan.emit_of_run {p : Plan} {k : Compound} (h : Emission.run {} p.steps s = (e, none, s'))
    (hf : e.finish p.outputPort = .ok k) : p.emit s = .ok k s' := by
  unfold emit
  rw [h]
  simp only [hf]

end FormulaGraph
