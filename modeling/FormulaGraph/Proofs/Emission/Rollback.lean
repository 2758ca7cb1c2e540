/-
  File:      FormulaGraph/Proofs/Emission/Rollback.lean
  Subject:   An emission that fails leaves the store as it was.

  Deleting what a journal names removes all that was added and nothing else: paths without points
  decide which wires a deletion cuts, and what is inside a node was made after it, so every node of
  the journal is still there when its turn comes. Only a deletion that is told to fail can leave
  something behind.

  * `Purged`, `undo_purged` -- what is left after undoing;
  * `Added.restored`, `Added.kept` -- undoing what was added, in full or in part;
  * `emit_rolled_back` -- the failure that an emission reports, and the store it leaves.
-/
import FormulaGraph.Proofs.Emission.Made

namespace FormulaGraph

open Store

/-! ## 1. A store after deletions -/

/-- What is left of a store once the nodes at `gone` are deleted. -/
structure Purged (gone : List String) (s s' : Store) : Prop where
  records : s'.records = s.records.filter fun e => !gone.any (covers · e.1)
  order : s'.order = s.order.filter fun path => !gone.any (covers · path)
  wires : s'.wires = s.wires.filter fun w => !gone.any (touches · w)
  driven : s'.driven = s.driven.filter fun port =>
    !s.wires.any fun w => w.target == port && gone.any (touches · w)
  focus : s'.focus = s.focus

namespace Purged

variable {s s₁ s₂ : Store} {gone more : List String}

theorem refl (s : Store) : Purged [] s s where
  records := by simp
  order := by simp
  wires := by simp
  driven := by
    refine (List.filter_eq_self.mpr fun port _ => ?_).symm
    simp
  focus := rfl

theorem counted (s : Store) (call : StoreCall) : Purged [] s (s.counted call) :=
  ⟨(refl s).records, (refl s).order, (refl s).wires, (refl s).driven, rfl⟩

theorem without (s : Store) (call : StoreCall) (node : String) :
    Purged [node] s ((s.counted call).without node) where
  records := by simp [Store.counted, Store.without]
  order := by simp [Store.counted, Store.without]
  wires := by simp [Store.counted, Store.without]
  driven := by
    simp only [Store.counted, Store.without, List.any_filter, List.any_cons, List.any_nil,
      Bool.or_false, Bool.and_comm]
  focus := rfl

theorem trans (h : Purged gone s s₁) (h' : Purged more s₁ s₂) : Purged (gone ++ more) s s₂ where
  records := by
    rw [h'.records, h.records, List.filter_filter]
    refine List.filter_congr fun e _ => ?_
    rw [List.any_append, Bool.not_or, Bool.and_comm]
  order := by
    rw [h'.order, h.order, List.filter_filter]
    refine List.filter_congr fun path _ => ?_
    rw [List.any_append, Bool.not_or, Bool.and_comm]
  wires := by
    rw [h'.wires, h.wires, List.filter_filter]
    refine List.filter_congr fun w _ => ?_
    rw [List.any_append, Bool.not_or, Bool.and_comm]
  driven := by
    rw [h'.driven, h.driven, h.wires, List.filter_filter]
    refine List.filter_congr fun port _ => ?_
    -- a wire that the first deletions have cut cannot be cut again, but its port is gone already
    rw [Bool.eq_iff_iff]
    simp only [Bool.and_eq_true, Bool.not_eq_true', List.any_eq_false, List.mem_filter,
      List.any_append, beq_iff_eq, Bool.or_eq_true, not_and, not_or, Bool.not_eq_true]
    constructor
    · rintro ⟨hmore, hgone⟩ w hw ht
      exact ⟨hgone w hw ht, hmore w ⟨hw, hgone w hw ht⟩ ht⟩
    · intro h
      exact ⟨fun w hw ht => (h w hw.1 ht).2, fun w hw ht => (h w hw ht).1⟩
  focus := h'.focus.trans h.focus

end Purged

/-! ## 2. Undoing -/

/-- The `i`th deletion from now on, counted from zero, is told to fail. -/
def Store.DeletionFails (s : Store) (i : Nat) : Prop :=
  (.deleteNode, s.calls .deleteNode + i + 1) ∈ s.faults

instance (s : Store) (i : Nat) : Decidable (s.DeletionFails i) :=
  inferInstanceAs (Decidable (_ ∈ _))

theorem refuses_deleteNode_iff {s : Store} : s.refuses .deleteNode = true ↔ s.DeletionFails 0 := by
  simp [refuses, DeletionFails]

/-- Each deletion counts, also one that fails. -/
theorem deletionFails_succ {s s' : Store} {i : Nat}
    (hc : s'.calls .deleteNode = s.calls .deleteNode + 1) (hf : s'.faults = s.faults) :
    s'.DeletionFails i ↔ s.DeletionFails (i + 1) := by
  rw [DeletionFails, DeletionFails, hc, hf, Nat.add_right_comm _ 1 i, Nat.add_assoc _ i 1]

theorem deleteNode_of_refuses {s : Store} {node : String} (h : s.refuses .deleteNode = true) :
    deleteNode node s = .error (.injected .deleteNode) (s.counted .deleteNode) := by
  have h : (s.counted .deleteNode).faults.contains
      (.deleteNode, (s.counted .deleteNode).calls .deleteNode) = true := by
    rw [calls_counted_self]
    exact h
  unfold deleteNode perform
  exact if_pos h

/-- **Undoing deletes exactly the nodes whose deletions are not told to fail**, and it reports a
    failure just when one of them is. The nodes have to be there, and none may be inside a later
    one of the list. -/
theorem undo_purged : ∀ {paths : List String} {s : Store},
    (∀ path ∈ paths, (s.record? path).isSome) → paths.Pairwise (fun a b => covers a b = false) →
    ∃ gone, Purged gone s (Emission.undo paths s).2 ∧
      (∀ path, path ∈ gone ↔ ∃ i, paths[i]? = some path ∧ ¬ s.DeletionFails i) ∧
      (Emission.undo paths s).1 =
        if ∃ i, i < paths.length ∧ s.DeletionFails i then some (.injected .deleteNode) else none
  | [], s, _, _ => ⟨[], .refl s, by simp, by simp [Emission.undo]⟩
  | path :: rest, s, hpresent, hpair => by
      obtain ⟨hfirst, hrest⟩ := List.pairwise_cons.mp hpair
      by_cases hf : s.refuses .deleteNode = true
      · -- refused: the node stays, and the others are tried all the same
        have hfail : s.DeletionFails 0 := refuses_deleteNode_iff.mp hf
        have hshift : ∀ i, (s.counted .deleteNode).DeletionFails i ↔ s.DeletionFails (i + 1) :=
          fun i => deletionFails_succ (calls_counted_self s _) rfl
        obtain ⟨gone, hp, hg, -⟩ := undo_purged (s := s.counted .deleteNode)
          (fun p hm => hpresent p (List.mem_cons_of_mem _ hm)) hrest
        have hu : Emission.undo (path :: rest) s = (some (.injected .deleteNode),
            (Emission.undo rest (s.counted .deleteNode)).2) := by
          rw [Emission.undo, deleteNode_of_refuses hf]
        refine ⟨gone, ?_, fun p => ?_, ?_⟩
        · rw [hu]
          exact (Purged.counted s _).trans hp
        · rw [hg, ← Nat.or_exists_add_one (p := fun i =>
            (path :: rest)[i]? = some p ∧ ¬ s.DeletionFails i)]
          simp [hfail, hshift]
        · rw [hu, if_pos ⟨0, by simp, hfail⟩]
      · have hok : s.refuses .deleteNode = false := by simpa using hf
        have hfail : ¬ s.DeletionFails 0 := fun h => hf (refuses_deleteNode_iff.mpr h)
        have hd : deleteNode path s = .ok () ((s.counted .deleteNode).without path) :=
          deleteNode_ok_iff.mpr ⟨hok, hpresent path List.mem_cons_self, rfl⟩
        have hu : Emission.undo (path :: rest) s =
            Emission.undo rest ((s.counted .deleteNode).without path) := by
          rw [Emission.undo, hd]
        have hshift : ∀ i, ((s.counted .deleteNode).without path).DeletionFails i ↔
            s.DeletionFails (i + 1) := fun i =>
          deletionFails_succ (calls_counted_self s .deleteNode) rfl
        have hstay : ∀ p ∈ rest, (((s.counted .deleteNode).without path).record? p).isSome := by
          intro p hm
          rw [record?_without, hfirst p hm]
          exact hpresent p (List.mem_cons_of_mem _ hm)
        obtain ⟨gone, hp, hg, he⟩ := undo_purged hstay hrest
        refine ⟨path :: gone, ?_, fun p => ?_, ?_⟩
        · rw [hu]
          exact (Purged.without s _ path).trans hp
        · -- the first node and the others: the deletions at `0` and at `i + 1`
          rw [List.mem_cons, hg, ← Nat.or_exists_add_one (p := fun i =>
            (path :: rest)[i]? = some p ∧ ¬ s.DeletionFails i)]
          simp [hfail, hshift, eq_comm]
        · rw [hu, he]
          refine if_congr ?_ rfl rfl
          rw [← Nat.or_exists_add_one (p := fun i =>
            i < (path :: rest).length ∧ s.DeletionFails i)]
          simp [hfail, hshift]

/-! ## 3. Undoing what was added -/

/-- The same nodes with the same ports and values, made in the same order, the same wires and driven
    ports, and the same focus. -/
structure SameGraph (s s' : Store) : Prop where
  records : s'.records = s.records
  order : s'.order = s.order
  wires : s'.wires = s.wires
  driven : s'.driven = s.driven
  focus : s'.focus = s.focus

theorem touches_eq (d : String) (w : Wire) :
    touches d w = ((isWithin d w.source || isPortOf d w.source) ||
      (isWithin d w.target || isPortOf d w.target)) :=
  rfl

/-- A wire is cut with a node that covers the node at its source. -/
theorem touches_of_source {d path name : String} {w : Wire} (h : covers d path = true)
    (hw : w.source = portPath path name) : touches d w = true := by
  have hb : (isWithin d w.source || isPortOf d w.source) = true := by
    rw [hw, Bool.or_eq_true]
    rcases Bool.or_eq_true_iff.mp h with he | hi
    · rw [beq_iff_eq.mp he]
      exact .inr (isPortOf_portPath_self _ _)
    · exact .inl (isWithin_portPath_of hi)
  rw [touches_eq, hb, Bool.true_or]

/-- A wire is cut with a node that covers the node at its target. -/
theorem touches_of_target {d path name : String} {w : Wire} (h : covers d path = true)
    (hw : w.target = portPath path name) : touches d w = true := by
  have hb : touches d ⟨w.target, w.source, w.kind⟩ = true := touches_of_source h hw
  rw [touches_eq, Bool.or_comm]
  exact hb

/-- Without points in the paths, a port goes with its own node only. -/
theorem not_belongs {d path name : String} (hd : '.' ∉ d.toList) (hp : '.' ∉ path.toList)
    (h : covers d path = false) :
    (isWithin d (portPath path name) || isPortOf d (portPath path name)) = false := by
  rw [isWithin_portPath hd, isPortOf_portPath hd hp, Bool.or_comm]
  exact h

theorem prefix_filter {α : Type} {old new : List α} {keep : α → Bool}
    (hk : ∀ a ∈ old, keep a = true) : old <+: (old ++ new).filter keep := by
  rw [List.filter_append, List.filter_eq_self.mpr hk]
  exact List.prefix_append _ _

theorem filter_append_eq_left {α : Type} {old new : List α} {keep : α → Bool}
    (hk : ∀ a ∈ old, keep a = true) (hd : ∀ a ∈ new, keep a = false) :
    (old ++ new).filter keep = old := by
  rw [List.filter_append, List.filter_eq_self.mpr hk,
    List.filter_eq_nil_iff.mpr fun a ha => by simp [hd a ha], List.append_nil]

namespace Added

variable {s₀ s s' : Store} {paths gone : List String}

section

variable (h : Added s₀ paths s) (hs₀ : Sound s₀) (hs : Sound s) (hplain : PlainPaths s)
include h hs₀ hs

/-- What was added covers nothing older. -/
theorem not_covers {d path : String} (hd : d ∈ paths) (hp : path ∈ s₀.order) :
    covers d path = false := by
  have hearly := hs.early
  rw [h.order_eq hs₀ hs, List.pairwise_append] at hearly
  exact hearly.2.2 path hp d (List.mem_reverse.mpr hd)

theorem pairwise_not_covers : paths.Pairwise fun a b => covers a b = false := by
  have hearly := hs.early
  rw [h.order_eq hs₀ hs, List.pairwise_append, List.pairwise_reverse] at hearly
  exact hearly.2.1

theorem keeps_path (hg : ∀ d ∈ gone, d ∈ paths) :
    ∀ path ∈ s₀.order, (!gone.any (covers · path)) = true := by
  intro path hm
  simpa using fun d hd => h.not_covers hs₀ hs (hg d hd) hm

theorem keeps_record (hg : ∀ d ∈ gone, d ∈ paths) :
    ∀ e ∈ s₀.records, (!gone.any (covers · e.1)) = true := by
  intro e hm
  refine h.keeps_path hs₀ hs hg e.1 ?_
  rw [hs₀.order_eq]
  exact List.mem_map_of_mem hm

include hplain

/-- Deleting what was added cuts no older wire. -/
theorem not_touches {d : String} (hd : d ∈ paths) {w : Wire} (hw : w ∈ s₀.wires) :
    touches d w = false := by
  have hdp := hplain d (h.mem_order hs₀ hs hd)
  obtain ⟨a, r, n, ha, hsource, _⟩ := hs₀.sources w hw
  obtain ⟨b, r', m, hb, htarget, _⟩ := hs₀.targets w hw
  have ha : (s₀.record? a).isSome := by rw [ha]; rfl
  have hb : (s₀.record? b).isSome := by rw [hb]; rfl
  have hca := h.not_covers hs₀ hs hd (hs₀.mem_order_iff.mpr ha)
  have hcb := h.not_covers hs₀ hs hd (hs₀.mem_order_iff.mpr hb)
  rw [touches_eq, hsource, htarget, not_belongs hdp (hplain a (h.mem_order_of_old hs₀ hs ha)) hca,
    not_belongs hdp (hplain b (h.mem_order_of_old hs₀ hs hb)) hcb]
  rfl

/-- Deleting what was added frees no port that was driven before. -/
theorem not_touches_of_driven {d : String} (hd : d ∈ paths) {port : String}
    (hport : port ∈ s₀.driven) {w : Wire} (hw : w ∈ s.wires) (ht : w.target = port) :
    touches d w = false := by
  obtain ⟨new, he, hat⟩ := h.wires
  rw [he] at hw
  rcases List.mem_append.mp hw with hw | hw
  · exact h.not_touches hs₀ hs hplain hd hw
  · -- a new wire ends at a new node, where no port was driven before
    obtain ⟨_, path, hp, n, hn⟩ := hat w hw
    rw [← ht, hn] at hport
    exact absurd hport (h.notMem_driven hs₀ hs hplain hp)

theorem keeps_wire (hg : ∀ d ∈ gone, d ∈ paths) :
    ∀ w ∈ s₀.wires, (!gone.any (touches · w)) = true := by
  intro w hm
  simpa using fun d hd => h.not_touches hs₀ hs hplain (hg d hd) hm

theorem keeps_driven (hg : ∀ d ∈ gone, d ∈ paths) : ∀ port ∈ s₀.driven,
    (!s.wires.any fun w => w.target == port && gone.any (touches · w)) = true := by
  intro port hm
  simpa using fun w hw ht d hd => h.not_touches_of_driven hs₀ hs hplain (hg d hd) hm hw ht

/-- **Deleting some of what was added leaves all that was there before.** -/
theorem kept (hp : Purged gone s s') (hg : ∀ d ∈ gone, d ∈ paths) : StillThere s₀ s' where
  records := by
    obtain ⟨new, he, _⟩ := h.records
    rw [hp.records, he]
    exact prefix_filter (h.keeps_record hs₀ hs hg)
  order := by
    rw [hp.order, h.order_eq hs₀ hs]
    exact prefix_filter (h.keeps_path hs₀ hs hg)
  wires := by
    obtain ⟨new, he, _⟩ := h.wires
    rw [hp.wires, he]
    exact prefix_filter (h.keeps_wire hs₀ hs hplain hg)
  driven := by
    obtain ⟨new, he, _⟩ := h.driven
    rw [hp.driven, he]
    exact prefix_filter (h.keeps_driven hs₀ hs hplain hg)
  focus := hp.focus.trans h.focus

/-- **Deleting nodes that cover all that was added leaves what was there before, and no more.** -/
theorem restored (hp : Purged gone s s') (hg : ∀ d ∈ gone, d ∈ paths)
    (hall : ∀ path ∈ paths, ∃ d ∈ gone, covers d path = true) : SameGraph s₀ s' where
  records := by
    obtain ⟨new, he, hk⟩ := h.records
    rw [hp.records, he]
    refine filter_append_eq_left (h.keeps_record hs₀ hs hg) fun e hm => ?_
    have hpath : e.1 ∈ paths := by
      rw [← List.mem_reverse, ← hk]
      exact List.mem_map_of_mem hm
    simpa using hall e.1 hpath
  order := by
    rw [hp.order, h.order_eq hs₀ hs]
    refine filter_append_eq_left (h.keeps_path hs₀ hs hg) fun path hm => ?_
    simpa using hall path (List.mem_reverse.mp hm)
  wires := by
    obtain ⟨new, he, hat⟩ := h.wires
    rw [hp.wires, he]
    refine filter_append_eq_left (h.keeps_wire hs₀ hs hplain hg) fun w hm => ?_
    obtain ⟨⟨path, hpath, name, hn⟩, _⟩ := hat w hm
    obtain ⟨d, hd, hc⟩ := hall path hpath
    simpa using ⟨d, hd, touches_of_source hc hn⟩
  driven := by
    obtain ⟨new, he, hat⟩ := h.driven
    rw [hp.driven]
    conv_lhs => rw [he]
    refine filter_append_eq_left (h.keeps_driven hs₀ hs hplain hg) fun port hm => ?_
    obtain ⟨path, hpath, name, hn⟩ := hat port hm
    obtain ⟨d, hd, hc⟩ := hall path hpath
    -- a driven port is the target of some wire, and that wire is cut
    obtain ⟨w, hw, ht⟩ := hs.driven port (by rw [he]; exact List.mem_append_right _ hm)
    simpa using ⟨w, hw, ht, d, hd, touches_of_target hc (ht.trans hn)⟩
  focus := hp.focus.trans h.focus

end

end Added

/-! ## 4. Where an emission stops -/

/-- The emission of a plan stops with a cause: at the first step that fails, or after the last one,
    if the compound or its output port is missing. `e` is what was made before. -/
inductive Stopped (p : Plan) (s : Store) : Emission → Failure → Store → Prop where
  | step {before after : List BuildStep} {step : BuildStep} {e : Emission} {s₁ s₂ : Store}
      {cause : Failure} (split : p.steps = before ++ step :: after)
      (taken : Emission.run {} before s = (e, none, s₁))
      (fails : e.take step s₁ = .error cause s₂) :
      Stopped p s e cause s₂
  | unfinished {e : Emission} {s₁ : Store} {cause : Failure}
      (taken : Emission.run {} p.steps s = (e, none, s₁))
      (fails : e.finish p.outputPort = .error cause) : Stopped p s e cause s₁

/-- An emission that fails has stopped and was undone. -/
theorem Plan.stopped_of_emit {p : Plan} {s s' : Store} {failure : Failure}
    (h : p.emit s = .error failure s') :
    ∃ e cause s₁, Stopped p s e cause s₁ ∧
      e.rollback (α := Compound) cause s₁ = .error failure s' := by
  unfold emit at h
  split at h
  · rename_i e cause s₁ hr
    obtain ⟨before, step, after, s₀, hsplit, htaken, hfails⟩ := Emission.run_error hr
    exact ⟨e, cause, s₁, .step hsplit htaken hfails, h⟩
  · rename_i e s₁ hr
    split at h
    · cases h
    · rename_i cause hf
      exact ⟨e, cause, s₁, .unfinished hr hf, h⟩

theorem Emission.rollback_error {e : Emission} {cause failure : Failure} {s s' : Store}
    (h : e.rollback (α := Compound) cause s = .error failure s') :
    s' = (undo e.journal s).2 ∧
      failure = match (undo e.journal s).1 with
        | none => cause
        | some source => .rollback cause source := by
  unfold rollback at h
  split at h
  · rename_i hu
    cases h
    rw [hu]
    exact ⟨rfl, rfl⟩
  · rename_i hu
    cases h
    rw [hu]
    exact ⟨rfl, rfl⟩

section

variable {p : Plan} {s₀ s : Store} {e : Emission} {cause : Failure}

/-- What holds of the steps before the stop holds where the emission stops. -/
theorem Stopped.made (h : Stopped p s₀ e cause s) (hs : s₀.Reachable IsPlain)
    (hp : p.Names IsPlain) : Sound s ∧ PlainPaths s ∧ Added s₀ e.journal s := by
  cases h with
  | @step before after step _ s₁ _ _ split taken fails =>
    have hm : Made s₀ e s₁ := (Made.start hs).run
      (fun st hst => hp st (by rw [split]; exact List.mem_append_left _ hst)) taken
    rcases Emission.take_error_cases fails with rfl | rfl
    · exact ⟨hm.sound, hm.reach.plainPaths, hm.added⟩
    · exact ⟨hm.sound.counted _, hm.reach.plainPaths,
        hm.added.counted (Emission.callOf_ne_deleteNode step)⟩
  | unfinished taken fails =>
    have hm : Made s₀ e s := (Made.start hs).run hp taken
    exact ⟨hm.sound, hm.reach.plainPaths, hm.added⟩

/-! ## 5. Plans that make one compound -/

/-- Making a compound is the first step of a plan and no other. -/
def Plan.CompoundFirst (p : Plan) : Prop :=
  ∃ parent name rest, p.steps = .createCompound parent name :: rest ∧
    ∀ step ∈ rest, Emission.callOf step ≠ .createCompound

/-- Everything that was made is the compound `k` or inside it, and `k` was made first. -/
structure InsideOf (k : String) (e : Emission) : Prop where
  compound : e.compound = some k
  last : e.journal.getLast? = some k
  covered : ∀ path ∈ e.journal, covers k path = true

theorem getLast?_cons_of_some {α : Type} {a b : α} {l : List α} (h : l.getLast? = some b) :
    (a :: l).getLast? = some b := by
  rw [List.getLast?_cons, h]
  rfl

theorem InsideOf.taken {k : String} {s s' : Store} {e e' : Emission} {step : BuildStep}
    (h : InsideOf k e) (hs : Sound s) (hn : step.Names IsPlain)
    (hc : Emission.callOf step ≠ .createCompound) (ht : e.Taken s step e' s') : InsideOf k e' := by
  cases ht with
  | createCompound call => exact absurd rfl hc
  | createOutputPort made call => exact ⟨h.compound, h.last, h.covered⟩
  | createInputPort made call =>
    unfold Emission.withInput
    split <;> exact ⟨h.compound, h.last, h.covered⟩
  | @createNode expr type compound path _ made call =>
    rw [h.compound] at made
    cases made
    obtain ⟨_, ⟨r, hr, _⟩, hi⟩ := createNode_ok_iff.mp call
    have hk : (s.record? k).isSome := by rw [hr]; rfl
    have hpath : path = childPath k ((s.counted .createNode).nameFor k type.shortName) :=
      (congrArg Prod.fst hi).symm
    have hname : IsPlain ((s.counted .createNode).nameFor k type.shortName) :=
      IsPlain.uniqueName hn _ _
    refine ⟨h.compound, getLast?_cons_of_some h.last, fun other hm => ?_⟩
    rcases List.mem_cons.mp hm with rfl | hm
    · rw [hpath]
      exact covers_childPath_self (hs.path_ne_empty hk) (hs.path_ne_root hk) hname.1.2
    · exact h.covered other hm
  | setLiteralValue made call => exact h
  | connect made source_eq target_eq call => exact h

/-- Where the emission of such a plan stops, nothing was made, or all that was made is inside the
    one compound. -/
theorem Stopped.insideOf (h : Stopped p s₀ e cause s) (hs : s₀.Reachable IsPlain)
    (hp : p.Names IsPlain) (hc : p.CompoundFirst) : e.journal = [] ∨ ∃ k, InsideOf k e := by
  obtain ⟨parent, name, rest, hsteps, hrest⟩ := hc
  have hrun : ∀ {steps : List BuildStep} {e : Emission} {s₁ : Store},
      (∀ step ∈ steps, step ∈ rest) →
      Emission.run {} (.createCompound parent name :: steps) s₀ = (e, none, s₁) →
      ∃ k, InsideOf k e := by
    intro steps e s₁ hsub hr
    unfold Emission.run at hr
    split at hr
    · rename_i e₁ s₂ ht
      have ht := Emission.take_ok_iff.mp ht
      have hname : BuildStep.Names IsPlain (.createCompound parent name) :=
        hp _ (by rw [hsteps]; exact List.mem_cons_self)
      have hm : Made s₀ e₁ s₂ := (Made.start hs).taken hname ht
      cases ht with
      | @createCompound _ _ k _ call =>
        have hstart : InsideOf k { ({} : Emission) with journal := [k], compound := some k } :=
          ⟨rfl, rfl, fun path hpath => by rw [List.mem_singleton.mp hpath, covers_self]⟩
        refine ⟨k, (Emission.run_induct (P := fun e s => Made s₀ e s ∧ InsideOf k e)
          (Q := fun step => step.Names IsPlain ∧ Emission.callOf step ≠ .createCompound)
          (fun e s step e' s' hq hi ht => ⟨hi.1.taken hq.1 ht, hi.2.taken hi.1.sound hq.1 hq.2 ht⟩)
          (fun step hm => ⟨hp step ?_, hrest step (hsub step hm)⟩) ⟨hm, hstart⟩ hr).2⟩
        rw [hsteps]
        exact List.mem_cons_of_mem _ (hsub step hm)
    · cases hr
  cases h with
  | @step before after step _ s₁ _ _ split taken fails =>
    rw [hsteps] at split
    cases before with
    | nil =>
      cases taken
      exact .inl rfl
    | cons first before =>
      obtain ⟨rfl, hr⟩ := List.cons.inj split
      exact .inr (hrun (fun st hst => by rw [hr]; exact List.mem_append_left _ hst) taken)
  | unfinished taken fails =>
    rw [hsteps] at taken
    exact .inr (hrun (fun _ hst => hst) taken)

end

/-! ## 6. Rolling back -/

/-- **An emission that fails leaves the store as it was.** Let it stop with a cause after making the
    nodes of its journal, in a store that was built by calls and where names are plain.

    * If no deletion of the rollback is told to fail, the graph is the one before the emission, and
      the failure is the cause.
    * If one is, the failure reports the cause together with the first such deletion; all that was
      there before is still there, and what is left over was made by the emission.
    * If the plan makes one compound, as its first step, the graph is the one before the emission
      unless the deletion of that compound, the last one, is told to fail. -/
theorem Plan.emit_rolled_back {p : Plan} {s s' : Store} {failure : Failure}
    (hs : s.Reachable IsPlain) (hp : p.Names IsPlain) (h : p.emit s = .error failure s') :
    ∃ e cause s₁, Stopped p s e cause s₁ ∧
      ((∀ i < e.journal.length, ¬ s.DeletionFails i) → failure = cause ∧ SameGraph s s') ∧
      ((∃ i < e.journal.length, s.DeletionFails i) →
        failure = .rollback cause (.injected .deleteNode) ∧ StillThere s s' ∧
          ∀ path ∈ s'.order, path ∉ s.order → path ∈ e.journal) ∧
      (p.CompoundFirst → (∀ i, i + 1 = e.journal.length → ¬ s.DeletionFails i) →
        SameGraph s s') := by
  obtain ⟨e, cause, s₁, hstop, hroll⟩ := stopped_of_emit h
  obtain ⟨hsound, hplain, hadd⟩ := hstop.made hs hp
  have hfails : ∀ i, s₁.DeletionFails i ↔ s.DeletionFails i := fun i => by
    rw [DeletionFails, DeletionFails, hadd.faults, hadd.deletes]
  obtain ⟨gone, hpurged, hgone, hreport⟩ := undo_purged
    (fun path hm => hadd.isSome_record? hm) (hadd.pairwise_not_covers hs.isSound hsound)
  simp only [hfails] at hgone hreport
  obtain ⟨rfl, hfailure⟩ := Emission.rollback_error hroll
  have hsub : ∀ d ∈ gone, d ∈ e.journal := fun d hd => by
    obtain ⟨i, hi, _⟩ := (hgone d).mp hd
    exact List.mem_of_getElem? hi
  refine ⟨e, cause, s₁, hstop, fun hall => ⟨?_, ?_⟩, fun hsome => ⟨?_, ?_, ?_⟩,
    fun hone hlast => ?_⟩
  · rw [hfailure, hreport, if_neg fun ⟨i, hi, hf⟩ => hall i hi hf]
  · refine hadd.restored hs.isSound hsound hplain hpurged hsub fun path hm =>
      ⟨path, ?_, covers_self _⟩
    obtain ⟨i, hi, he⟩ := List.getElem_of_mem hm
    exact (hgone path).mpr ⟨i, by rw [List.getElem?_eq_getElem hi, he], hall i hi⟩
  · rw [hfailure, hreport, if_pos hsome]
  · exact hadd.kept hs.isSound hsound hplain hpurged hsub
  · intro path hm hold
    rw [hpurged.order, List.mem_filter, hadd.order_eq hs.isSound hsound, List.mem_append] at hm
    rcases hm.1 with hm | hm
    · exact absurd hm hold
    · exact List.mem_reverse.mp hm
  · refine hadd.restored hs.isSound hsound hplain hpurged hsub ?_
    rcases hstop.insideOf hs hp hone with hnil | ⟨k, hk⟩
    · intro path hm
      rw [hnil] at hm
      cases hm
    · have hne : e.journal.length ≠ 0 := fun h0 => by
        have hlast := hk.last
        rw [List.length_eq_zero_iff.mp h0] at hlast
        cases hlast
      have hk' : k ∈ gone := by
        refine (hgone k).mpr ⟨e.journal.length - 1, ?_, hlast _ (by omega)⟩
        rw [← List.getLast?_eq_getElem?]
        exact hk.last
      exact fun path hm => ⟨k, hk', hk.covered path hm⟩

/-- The compound is made, its node is refused, and the compound is deleted again. -/
theorem Plan.emit_rolled_back_of_refused_node :
    let p : Plan := ⟨"expr", "/", "out", 0, [.createCompound "/" "expr",
      .createNode 0 NodeType.constant, .setLiteralValue 0 2], [], []⟩
    let s := Store.empty.failOn .createNode 1
    ∃ failure s', p.emit s = .error failure s' ∧ SameGraph s s' := by
  intro p s
  have hs : s.Reachable IsPlain := .step .empty (.failOn .createNode 1) trivial
  have hp : p.Names IsPlain := by decide +zetaReduce
  have hd : ∀ i, ¬ s.DeletionFails i := by simp [s, DeletionFails, failOn, Store.empty]
  refine ⟨_, _, rfl, ?_⟩
  obtain ⟨e, cause, s₁, _, hall, _, _⟩ := emit_rolled_back hs hp rfl
  exact (hall fun i _ => hd i).2

end FormulaGraph
