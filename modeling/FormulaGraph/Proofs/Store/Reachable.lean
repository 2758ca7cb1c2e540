/-
  File:      FormulaGraph/Proofs/Store/Reachable.lean
  Subject:   The stores that calls lead to.

  * `Request`, `Request.run` -- a call with its arguments, and the store it leaves, whether it
    succeeds or not;
  * `Reachable` -- the stores that requests lead to from the empty one, where compounds and nodes
    are given names of one kind only;
  * `Outcome`, `Request.outcome` -- the one change that each request may make;
  * `Reachable.sound` -- segments for names make every reachable store sound;
  * `Reachable.plainPaths` -- plain names make every path free of points.
-/
import FormulaGraph.Proofs.Store.Sound

namespace FormulaGraph

namespace Store

variable {s s' : Store}

/-- A call that changes a store, with its arguments; telling a call to fail and turning to a
    container are among them. -/
inductive Request where
  | createCompound (parent name : String)
  | createInputPort (compound name : String) (skipExisting : Bool)
  | createOutputPort (compound name : String)
  | createNode (compound : String) (type : NodeType)
  | setLiteralValue (node : String) (value : Float)
  | connect (compound : String) (source target : PortRef) (kind : WireKind)
  | deleteNode (node : String)
  | failOn (call : StoreCall) (nth : Nat)
  | look (container : String)

namespace Request

/-- The store that a request leaves. -/
def run : Request → Store → Store
  | createCompound parent name, s => stateOf (Store.createCompound parent name s)
  | createInputPort compound name skip, s => stateOf (Store.createInputPort compound name skip s)
  | createOutputPort compound name, s => stateOf (Store.createOutputPort compound name s)
  | createNode compound type, s => stateOf (Store.createNode compound type s)
  | setLiteralValue node value, s => stateOf (Store.setLiteralValue node value s)
  | connect compound source target kind, s => stateOf (Store.connect compound source target kind s)
  | deleteNode node, s => stateOf (Store.deleteNode node s)
  | failOn call nth, s => s.failOn call nth
  | look container, s => s.look container

/-- The names that a request gives to compounds and nodes are of a kind. -/
def Names (ok : String → Prop) : Request → Prop
  | createCompound _ name => ok name
  | createNode _ type => ok type.shortName
  | _ => True

theorem Names.imp {ok ok' : String → Prop} (h : ∀ name, ok name → ok' name) {q : Request}
    (hq : q.Names ok) : q.Names ok' := by
  cases q <;> first | exact h _ hq | trivial

end Request

/-- The stores that requests lead to, with names of one kind. -/
inductive Reachable (ok : String → Prop) : Store → Prop where
  | empty : Reachable ok Store.empty
  | step {s : Store} (h : Reachable ok s) (q : Request) (names : q.Names ok) :
      Reachable ok (q.run s)

/-! ## 1. What a request does -/

/-- What a request may leave: the store as it was but for counts, faults and focus, or the store
    after the one elementary change that the request stands for. -/
inductive Outcome (s : Store) : Request → Store → Prop where
  | unchanged {q : Request} {s' : Store} (records : s'.records = s.records)
      (order : s'.order = s.order) (siblings : s'.siblings = s.siblings)
      (wires : s'.wires = s.wires) (driven : s'.driven = s.driven) : Outcome s q s'
  | createCompound {parent name : String} (container : s.hasContainer parent = true) :
      Outcome s (.createCompound parent name)
        ((s.counted .createCompound).insert parent (compoundRecord parent name)).2
  | createInputPort {compound name : String} {skip : Bool} {r : Record}
      (found : s.record? compound = some r) (isCompound : r.isCompound = true) :
      Outcome s (.createInputPort compound name skip)
        ((s.counted .createInputPort).addInput compound (uniqueName name 0 r.inputs).1)
  | createOutputPort {compound name : String} {r : Record} (found : s.record? compound = some r)
      (isCompound : r.isCompound = true) :
      Outcome s (.createOutputPort compound name)
        ((s.counted .createOutputPort).addOutput compound (uniqueName name 0 r.outputs).1)
  | createNode {compound : String} {type : NodeType} (container : s.hasContainer compound = true) :
      Outcome s (.createNode compound type)
        ((s.counted .createNode).insert compound (nodeRecord compound type)).2
  | setLiteralValue {node : String} {value : Float} {r : Record} (found : s.record? node = some r)
      (constant : r.nodeType = some NodeType.constant) :
      Outcome s (.setLiteralValue node value) ((s.counted .setLiteralValue).setValue node value)
  | connect {compound start stop : String} {source target : PortRef} {kind : WireKind} {s₁ : Store}
      (leaves : SourcePort (s.counted .connect) compound source start)
      (arrives : TargetPort (s.counted .connect) compound target stop s₁) :
      Outcome s (.connect compound source target kind) (s₁.addWire ⟨start, stop, kind⟩)
  | deleteNode {node : String} (found : (s.record? node).isSome = true) :
      Outcome s (.deleteNode node) ((s.counted .deleteNode).without node)

/-- A call that fails changes its count only, so the calls that succeed decide. -/
theorem stateOf_perform {P : Store → Prop} {α : Type} {call : StoreCall}
    {work : Store → Except StoreError (α × Store)} (herr : P (s.counted call))
    (hok : ∀ a s', perform call work s = .ok a s' → P s') : P (stateOf (perform call work s)) := by
  cases h : perform call work s with
  | ok a s' => exact hok a s' h
  | error e s' =>
    rw [stateOf, perform_error h]
    exact herr

theorem Outcome.counted (q : Request) (s : Store) (call : StoreCall) :
    Outcome s q (s.counted call) :=
  .unchanged rfl rfl rfl rfl rfl

/-- **A request does its elementary change or nothing.** -/
theorem Request.outcome (q : Request) (s : Store) : Outcome s q (q.run s) := by
  cases q with
  | createCompound parent name =>
    refine stateOf_perform (.counted _ s _) fun path s' hok => ?_
    obtain ⟨_, hc, he⟩ := createCompound_ok_iff.mp hok
    obtain rfl : _ = s' := congrArg Prod.snd he
    exact .createCompound hc
  | createInputPort compound name skip =>
    refine stateOf_perform (.counted _ s _) fun port s' hok => ?_
    obtain ⟨_, r, hr, hc, ⟨_, _, rfl⟩ | ⟨_, _, rfl⟩⟩ := createInputPort_ok_iff.mp hok
    · exact .counted _ s _
    · exact .createInputPort hr hc
  | createOutputPort compound name =>
    refine stateOf_perform (.counted _ s _) fun port s' hok => ?_
    obtain ⟨_, r, hr, hc, _, rfl⟩ := createOutputPort_ok_iff.mp hok
    exact .createOutputPort hr hc
  | createNode compound type =>
    refine stateOf_perform (.counted _ s _) fun path s' hok => ?_
    obtain ⟨_, hc, he⟩ := createNode_ok_iff.mp hok
    obtain rfl : _ = s' := congrArg Prod.snd he
    exact .createNode (hasContainer_iff.mpr (.inr hc))
  | setLiteralValue node value =>
    refine stateOf_perform (.counted _ s _) fun u s' hok => ?_
    obtain ⟨_, r, hr, ht, rfl⟩ := setLiteralValue_ok_iff.mp hok
    exact .setLiteralValue hr ht
  | connect compound source target kind =>
    refine stateOf_perform (.counted _ s _) fun u s' hok => ?_
    obtain ⟨_, _, start, stop, s₁, hs, ht, rfl⟩ := connect_ok_iff.mp hok
    exact .connect hs ht
  | deleteNode node =>
    refine stateOf_perform (.counted _ s _) fun u s' hok => ?_
    obtain ⟨_, hr, rfl⟩ := deleteNode_ok_iff.mp hok
    exact .deleteNode hr
  | failOn call nth => exact .unchanged rfl rfl rfl rfl rfl
  | look container => exact .unchanged rfl rfl rfl rfl rfl

/-! ## 2. Every reachable store is sound -/

theorem SourcePort.hasSource {compound port : String} {source : PortRef}
    (h : SourcePort s compound source port) : s.HasSource port := by
  cases h with
  | node within found first =>
    exact ⟨_, _, _, found, rfl, .inl (List.mem_of_mem_head? first)⟩
  | input found isCompound listed => exact ⟨_, _, _, found, rfl, .inr ⟨isCompound, listed⟩⟩

theorem TargetPort.hasTarget {compound port : String} {target : PortRef}
    (h : TargetPort s compound target port s') : s'.HasTarget port := by
  cases h with
  | free within found first =>
    exact ⟨_, _, _, found, rfl, .inl (List.mem_of_find?_eq_some first)⟩
  | @added path r within found full =>
    refine ⟨path, { r with inputs := r.inputs ++ [addedInput r.inputs.length] }, _, ?_, rfl,
      .inl (List.mem_append_right _ List.mem_cons_self)⟩
    rw [addInput, record?_updateRecord, if_pos rfl, found]
    rfl
  | output found isCompound listed idle => exact ⟨_, _, _, found, rfl, .inr ⟨isCompound, listed⟩⟩

theorem TargetPort.sound {compound port : String} {target : PortRef} (hs : Sound s)
    (h : TargetPort s compound target port s') : Sound s' := by
  cases h with
  | free within found first => exact hs
  | added within found full => exact hs.addInput _ _
  | output found isCompound listed idle => exact hs

theorem TargetPort.source {compound port other : String} {target : PortRef}
    (h : TargetPort s compound target port s') (ho : s.HasSource other) : s'.HasSource other := by
  cases h with
  | free within found first => exact ho
  | added within found full => exact ho.updateRecord fun r _ => grows_addInput r _
  | output found isCompound listed idle => exact ho

/-- **Every request keeps a store sound.** -/
theorem Outcome.sound {q : Request} (ho : Outcome s q s') (h : Sound s) (hq : q.Names IsSegment) :
    Sound s' := by
  cases ho with
  | unchanged records order siblings wires driven =>
    exact h.congr records order siblings wires driven
  | createCompound container => exact (h.counted _).insert container hq rfl rfl
  | createInputPort found isCompound => exact (h.counted _).addInput _ _
  | createOutputPort found isCompound => exact (h.counted _).addOutput _ _
  | createNode container => exact (h.counted _).insert container hq rfl rfl
  | setLiteralValue found constant => exact (h.counted _).setValue found constant _
  | connect leaves arrives =>
    exact (arrives.sound (h.counted _)).addWire (arrives.source leaves.hasSource) arrives.hasTarget
  | deleteNode found => exact (h.counted _).without found

/-- **Every store that is reached by giving segments for names is sound.** -/
theorem Reachable.sound {ok : String → Prop} (hok : ∀ name, ok name → IsSegment name)
    (h : Reachable ok s) : Sound s := by
  induction h with
  | empty => exact sound_empty
  | step _ q names ih => exact (q.outcome _).sound ih (names.imp hok)

/-! ## 3. Paths without points -/

/-- No path has a point in it. -/
def PlainPaths (s : Store) : Prop := ∀ path ∈ s.order, '.' ∉ path.toList

theorem PlainPaths.pathFor (h : PlainPaths s) (hs : Sound s) {container wanted : String}
    (hc : s.hasContainer container = true) (hn : IsPlain wanted) :
    '.' ∉ (s.pathFor container wanted).toList := by
  have hname : IsPlain (s.nameFor container wanted) := hn.uniqueName _ _
  have hstem : '.' ∉ (stem container).toList := by
    unfold stem
    split
    · simp
    · rename_i hr
      rcases hasContainer_iff.mp hc with hroot | ⟨r, hr', _⟩
      · exact absurd hroot hr
      · exact h container (hs.mem_order_iff.mpr (by rw [hr']; rfl))
  rw [Store.pathFor, toList_childPath, List.mem_append, List.mem_cons]
  rintro (hm | hm | hm)
  · exact hstem hm
  · cases hm
  · exact hname.2 hm

theorem PlainPaths.insert (h : PlainPaths s) (hs : Sound s) {container : String} {r : Record}
    (hc : s.hasContainer container = true) (hn : IsPlain r.name) :
    PlainPaths (s.insert container r).2 := by
  intro path hp
  rcases List.mem_append.mp hp with hp | hp
  · exact h path hp
  · rw [List.mem_singleton.mp hp]
    exact h.pathFor hs hc hn

theorem Outcome.plainPaths {q : Request} (ho : Outcome s q s') (h : PlainPaths s) (hs : Sound s)
    (hq : q.Names IsPlain) : PlainPaths s' := by
  cases ho with
  | unchanged records order siblings wires driven => exact fun path hp => h path (order ▸ hp)
  | createCompound container =>
    exact PlainPaths.insert (s := s.counted _) h (hs.counted _) container hq
  | createInputPort found isCompound => exact h
  | createOutputPort found isCompound => exact h
  | createNode container => exact PlainPaths.insert (s := s.counted _) h (hs.counted _) container hq
  | setLiteralValue found constant => exact h
  | connect leaves arrives => cases arrives <;> exact h
  | deleteNode found => exact fun path hp => h path (List.mem_filter.mp hp).1

theorem Reachable.plainPaths (h : Reachable IsPlain s) : PlainPaths s := by
  induction h with
  | empty => exact fun _ hp => absurd hp List.not_mem_nil
  | step hr q names ih =>
    exact (q.outcome _).plainPaths ih (hr.sound fun _ hn => hn.isSegment) names

end Store

end FormulaGraph
