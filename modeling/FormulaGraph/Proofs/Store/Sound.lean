/-
  File:      FormulaGraph/Proofs/Store/Sound.lean
  Subject:   What every store that was built by calls keeps true.

  A store says the same thing in several places: the records and the order of creation, the names in
  use and the records of a container, the wires and the driven ports. `Sound` says that they agree,
  and each elementary change keeps it:

  * `Sound.insert` -- a record with a segment for its name, put into a container that is there;
  * `Sound.updateRecord` -- more ports of a record, or the value of a constant;
  * `Sound.addWire` -- a wire between ports that are there;
  * `Sound.without` -- deleting a node with what it covers.

  Names need no more than to be segments here; points do no harm to any of this.
-/
import FormulaGraph.Proofs.Store.Effect
import FormulaGraph.Proofs.Store.FreshName

namespace FormulaGraph

namespace Store

variable {s s' : Store}

/-! ## 1. The invariant -/

/-- The names in use in a container. -/
def namesIn (s : Store) (container : String) : List String :=
  ((s.siblings.lookup container).getD {}).names

/-- A port that data can come from: an output of a node, or an input of a compound as seen from
    inside. -/
def HasSource (s : Store) (port : String) : Prop :=
  ∃ path r name, s.record? path = some r ∧ port = portPath path name ∧
    (name ∈ r.outputs ∨ r.isCompound = true ∧ name ∈ r.inputs)

/-- A port that data can go to: an input of a node, or an output of a compound as seen from
    inside. -/
def HasTarget (s : Store) (port : String) : Prop :=
  ∃ path r name, s.record? path = some r ∧ port = portPath path name ∧
    (name ∈ r.inputs ∨ r.isCompound = true ∧ name ∈ r.outputs)

/-- **The parts of a store agree.** -/
structure Sound (s : Store) : Prop where
  /-- Every record was created once, in this order. -/
  order_eq : s.order = s.records.map Prod.fst
  nodup : s.order.Nodup
  /-- A record stands where its container and its name say, and the container is there. -/
  placed : ∀ path r, s.record? path = some r →
    path = childPath r.container r.name ∧ IsSegment r.name ∧ s.hasContainer r.container = true
  /-- The names in use in a container are those of the records in it. -/
  taken : ∀ container name, name ∈ s.namesIn container ↔
    ∃ r, s.record? (childPath container name) = some r ∧ r.container = container ∧ r.name = name
  /-- What is inside a node was created after it. -/
  early : s.order.Pairwise fun a b => covers b a = false
  sources : ∀ w ∈ s.wires, s.HasSource w.source
  targets : ∀ w ∈ s.wires, s.HasTarget w.target
  /-- Only a wire marks a port as driven. -/
  driven : ∀ port ∈ s.driven, ∃ w ∈ s.wires, w.target = port
  /-- Only a constant has a value. -/
  valued : ∀ path r, s.record? path = some r → r.value.isSome = true →
    r.nodeType = some NodeType.constant

theorem sound_empty : Sound empty where
  order_eq := rfl
  nodup := List.nodup_nil
  placed path r h := by cases h
  taken container name := by simp [namesIn, empty, record?]
  early := List.Pairwise.nil
  sources w h := absurd h List.not_mem_nil
  targets w h := absurd h List.not_mem_nil
  driven port h := absurd h List.not_mem_nil
  valued path r h := by cases h

/-- Counting, faults and focus have no part in it. -/
theorem Sound.congr (h : Sound s) (hr : s'.records = s.records) (ho : s'.order = s.order)
    (hs : s'.siblings = s.siblings) (hw : s'.wires = s.wires) (hd : s'.driven = s.driven) :
    Sound s' := by
  cases s
  cases s'
  simp only at hr ho hs hw hd
  subst hr ho hs hw hd
  exact ⟨h.order_eq, h.nodup, h.placed, h.taken, h.early, h.sources, h.targets, h.driven, h.valued⟩

theorem Sound.counted (h : Sound s) (call : StoreCall) : Sound (s.counted call) :=
  h.congr rfl rfl rfl rfl rfl

/-! ## 2. Paths in a sound store -/

theorem Sound.nodup_keys (h : Sound s) : (s.records.map Prod.fst).Nodup := h.order_eq ▸ h.nodup

theorem Sound.record?_of_mem (h : Sound s) {path : String} {r : Record}
    (hm : (path, r) ∈ s.records) : s.record? path = some r :=
  Assoc.lookup_of_mem h.nodup_keys hm

theorem Sound.mem_order_iff (h : Sound s) {path : String} :
    path ∈ s.order ↔ (s.record? path).isSome := by
  rw [h.order_eq]
  exact Assoc.isSome_lookup_iff.symm

theorem Sound.path_ne_empty (h : Sound s) {path : String} (hp : (s.record? path).isSome) :
    path ≠ "" := by
  obtain ⟨r, hr⟩ := Option.isSome_iff_exists.mp hp
  rw [(h.placed path r hr).1]
  exact childPath_ne_empty _ _

theorem Sound.path_ne_root (h : Sound s) {path : String} (hp : (s.record? path).isSome) :
    path ≠ rootPath := by
  obtain ⟨r, hr⟩ := Option.isSome_iff_exists.mp hp
  obtain ⟨he, hn, _⟩ := h.placed path r hr
  rw [he]
  exact childPath_ne_root hn

theorem Sound.container_ne_empty (h : Sound s) {container : String}
    (hc : s.hasContainer container = true) : container ≠ "" := by
  rcases hasContainer_iff.mp hc with rfl | ⟨r, hr, _⟩
  · decide
  · exact h.path_ne_empty (by rw [hr]; rfl)

/-- What something lies below is there. -/
theorem Sound.isSome_of_isWithin (h : Sound s) {node : String} (hn : node ≠ "")
    (hr : node ≠ rootPath) : ∀ (n : Nat) (path : String), path.length = n →
      (s.record? path).isSome → isWithin node path = true → (s.record? node).isSome := by
  -- up from the path, container by container; every step makes it shorter
  intro n
  induction n using Nat.strongRecOn with
  | ind n ih =>
    intro path hl hp hw
    obtain ⟨r, hrec⟩ := Option.isSome_iff_exists.mp hp
    obtain ⟨he, hseg, hcont⟩ := h.placed path r hrec
    rw [he, isWithin_childPath hn hr hseg.2, covers, Bool.or_eq_true, beq_iff_eq] at hw
    rcases hasContainer_iff.mp hcont with hroot | ⟨r', hr', _⟩
    · rw [hroot, not_isWithin_root hn] at hw
      rcases hw with hw | hw
      · exact absurd hw.symm hr
      · cases hw
    · rcases hw with hw | hw
      · rw [← hw, hr']; rfl
      · refine ih r.container.length ?_ r.container rfl (by rw [hr']; rfl) hw
        have hcr : r.container ≠ rootPath := h.path_ne_root (by rw [hr']; rfl)
        have hlen : path.length = r.container.length + 1 + r.name.length := by
          rw [he, childPath, if_neg hcr, String.length_append, String.length_append]
          rfl
        omega

/-! ## 3. A new record -/

/-- The name that a container has free for a wanted one. -/
def nameFor (s : Store) (container wanted : String) : String :=
  (uniqueName wanted
    ((((s.siblings.lookup container).getD {}).numbers.lookup wanted).getD 0)
    (s.namesIn container)).1

/-- The path that a new record gets. -/
def pathFor (s : Store) (container wanted : String) : String :=
  childPath container (s.nameFor container wanted)

theorem nameFor_notMem (s : Store) (container wanted : String) :
    s.nameFor container wanted ∉ s.namesIn container := uniqueName_notMem _ _ _

theorem isSegment_nameFor (s : Store) (container : String) {wanted : String}
    (h : IsSegment wanted) : IsSegment (s.nameFor container wanted) := h.uniqueName _ _

/-- The path of a new record was not there. -/
theorem Sound.record?_pathFor (h : Sound s) {container wanted : String}
    (hc : s.hasContainer container = true) (hn : IsSegment wanted) :
    s.record? (s.pathFor container wanted) = none := by
  rw [Option.eq_none_iff_forall_ne_some]
  intro r hr
  obtain ⟨he, hseg, hcont⟩ := h.placed _ r hr
  have hname := isSegment_nameFor s container hn
  have hinj := (childPath_inj (h.container_ne_empty hc) (h.container_ne_empty hcont) hname.2
    hseg.2).mp he
  exact nameFor_notMem s container wanted
    ((h.taken container _).mpr ⟨r, hr, hinj.1.symm, hinj.2.symm⟩)

theorem Sound.records_insert (h : Sound s) {container : String} {r : Record}
    (hc : s.hasContainer container = true) (hn : IsSegment r.name) :
    (s.insert container r).2.records =
      s.records ++ [(s.pathFor container r.name, { r with name := s.nameFor container r.name })] :=
  Assoc.put_of_lookup_eq_none (h.record?_pathFor hc hn)

theorem record?_insert (s : Store) (container : String) (r : Record) (path : String) :
    (s.insert container r).2.record? path =
      if path = s.pathFor container r.name then some { r with name := s.nameFor container r.name }
      else s.record? path :=
  Assoc.lookup_put _ _ _ _

theorem namesIn_insert (s : Store) (container : String) (r : Record) (other : String) :
    (s.insert container r).2.namesIn other =
      if other = container then s.nameFor container r.name :: s.namesIn container
      else s.namesIn other := by
  unfold namesIn
  show ((Assoc.put container _ s.siblings).lookup other |>.getD {}).names = _
  rw [Assoc.lookup_put]
  split <;> rfl

/-- A record that is there stays as it is. -/
theorem Sound.record?_insert_of_some (h : Sound s) {container : String} {r r' : Record}
    (hc : s.hasContainer container = true) (hn : IsSegment r.name) {path : String}
    (hp : s.record? path = some r') : (s.insert container r).2.record? path = some r' := by
  rw [record?_insert, if_neg, hp]
  rintro rfl
  rw [h.record?_pathFor hc hn] at hp
  cases hp

theorem Sound.hasContainer_insert (h : Sound s) {container : String} {r : Record}
    (hc : s.hasContainer container = true) (hn : IsSegment r.name) {other : String}
    (ho : s.hasContainer other = true) : (s.insert container r).2.hasContainer other = true := by
  rcases hasContainer_iff.mp ho with hroot | ⟨r', hr', hcomp⟩
  · exact hasContainer_iff.mpr (.inl hroot)
  · exact hasContainer_iff.mpr (.inr ⟨r', h.record?_insert_of_some hc hn hr', hcomp⟩)

/-- A new path covers nothing that is there. -/
theorem Sound.not_covers_pathFor (h : Sound s) {container wanted : String}
    (hc : s.hasContainer container = true) (hn : IsSegment wanted) {path : String}
    (hp : path ∈ s.order) : covers (s.pathFor container wanted) path = false := by
  have hfresh := h.record?_pathFor hc hn
  have hpath := h.mem_order_iff.mp hp
  rw [Bool.eq_false_iff]
  intro hcov
  rw [covers, Bool.or_eq_true, beq_iff_eq] at hcov
  rcases hcov with rfl | hw
  · rw [hfresh] at hpath
    cases hpath
  · have hsome : (s.record? (s.pathFor container wanted)).isSome :=
      h.isSome_of_isWithin (childPath_ne_empty _ _)
        (childPath_ne_root (isSegment_nameFor s container hn)) _ path rfl hpath hw
    rw [hfresh] at hsome
    cases hsome

/-- **A new record with a segment for its name keeps a store sound.** -/
theorem Sound.insert (h : Sound s) {container : String} {r : Record}
    (hc : s.hasContainer container = true) (hn : IsSegment r.name) (hr : r.container = container)
    (hv : r.value = none) : Sound (s.insert container r).2 := by
  have hrec := h.records_insert hc hn
  have hfresh := h.record?_pathFor hc hn
  have hord : (s.insert container r).2.order = s.order ++ [s.pathFor container r.name] := rfl
  have hname := isSegment_nameFor s container hn
  refine
    { order_eq := ?_, nodup := ?_, placed := ?_, taken := ?_, early := ?_, sources := ?_,
      targets := ?_, driven := h.driven, valued := ?_ }
  · rw [hord, hrec, List.map_append, h.order_eq]
    rfl
  · rw [hord, List.nodup_append]
    refine ⟨h.nodup, by simp, fun a ha b hb => ?_⟩
    rw [List.mem_singleton.mp hb]
    rintro rfl
    have := h.mem_order_iff.mp ha
    rw [hfresh] at this
    cases this
  · intro path r' hp
    rw [record?_insert] at hp
    split at hp
    · rename_i he
      cases hp
      exact ⟨by rw [he, pathFor, hr], hname, h.hasContainer_insert hc hn (hr ▸ hc)⟩
    · obtain ⟨h₁, h₂, h₃⟩ := h.placed path r' hp
      exact ⟨h₁, h₂, h.hasContainer_insert hc hn h₃⟩
  · intro other name
    rw [namesIn_insert]
    by_cases ho : other = container
    · subst ho
      rw [if_pos rfl, List.mem_cons, h.taken]
      constructor
      · rintro (rfl | ⟨r', hr', h₁, h₂⟩)
        · exact ⟨{ r with name := s.nameFor other r.name },
            by rw [record?_insert, pathFor, if_pos rfl], hr, rfl⟩
        · exact ⟨r', h.record?_insert_of_some hc hn hr', h₁, h₂⟩
      · rintro ⟨r', hr', h₁, h₂⟩
        rw [record?_insert] at hr'
        split at hr'
        · cases hr'
          exact .inl h₂.symm
        · exact .inr ⟨r', hr', h₁, h₂⟩
    · rw [if_neg ho, h.taken]
      constructor
      · rintro ⟨r', hr', h₁, h₂⟩
        exact ⟨r', h.record?_insert_of_some hc hn hr', h₁, h₂⟩
      · rintro ⟨r', hr', h₁, h₂⟩
        rw [record?_insert] at hr'
        split at hr'
        · cases hr'
          exact absurd (h₁.symm.trans hr) ho
        · exact ⟨r', hr', h₁, h₂⟩
  · rw [hord, List.pairwise_append]
    refine ⟨h.early, by simp, fun a ha b hb => ?_⟩
    rw [List.mem_singleton.mp hb]
    exact h.not_covers_pathFor hc hn ha
  · intro w hw
    obtain ⟨path, r', name, hp, he, hm⟩ := h.sources w hw
    exact ⟨path, r', name, h.record?_insert_of_some hc hn hp, he, hm⟩
  · intro w hw
    obtain ⟨path, r', name, hp, he, hm⟩ := h.targets w hw
    exact ⟨path, r', name, h.record?_insert_of_some hc hn hp, he, hm⟩
  · intro path r' hp hval
    rw [record?_insert] at hp
    split at hp
    · cases hp
      rw [hv] at hval
      cases hval
    · exact h.valued path r' hp hval

/-! ## 4. A changed record -/

/-- A record with more ports than another, or with a value if it is a constant. -/
structure Grows (r r' : Record) : Prop where
  name : r'.name = r.name
  container : r'.container = r.container
  nodeType : r'.nodeType = r.nodeType
  inputs : r.inputs ⊆ r'.inputs
  outputs : r.outputs ⊆ r'.outputs
  value : r'.value = r.value ∨ r.nodeType = some NodeType.constant

theorem Grows.isCompound {r r' : Record} (h : Grows r r') : r'.isCompound = r.isCompound := by
  rw [Record.isCompound, Record.isCompound, h.nodeType]

section Update

variable {path : String} {f : Record → Record}

/-- Every record is found where it was, as it was or grown. -/
theorem record?_updateRecord_of_some (hf : ∀ r, s.record? path = some r → Grows r (f r))
    {other : String} {r : Record} (h : s.record? other = some r) :
    ∃ r', (s.updateRecord path f).record? other = some r' ∧ (r' = r ∨ Grows r r') := by
  rw [record?_updateRecord]
  split
  · rename_i he
    subst he
    exact ⟨f r, by rw [h]; rfl, .inr (hf r h)⟩
  · exact ⟨r, h, .inl rfl⟩

/-- Every record that is found was there, as it is or smaller. -/
theorem record?_of_updateRecord (hf : ∀ r, s.record? path = some r → Grows r (f r))
    {other : String} {r' : Record} (h : (s.updateRecord path f).record? other = some r') :
    ∃ r, s.record? other = some r ∧ (r' = r ∨ Grows r r') := by
  rw [record?_updateRecord] at h
  split at h
  · rename_i he
    subst he
    obtain ⟨r, hr, rfl⟩ := Option.map_eq_some_iff.mp h
    exact ⟨r, hr, .inr (hf r hr)⟩
  · exact ⟨r', h, .inl rfl⟩

theorem hasContainer_updateRecord (hf : ∀ r, s.record? path = some r → Grows r (f r))
    {container : String} (h : s.hasContainer container = true) :
    (s.updateRecord path f).hasContainer container = true := by
  rcases hasContainer_iff.mp h with hroot | ⟨r, hr, hc⟩
  · exact hasContainer_iff.mpr (.inl hroot)
  · obtain ⟨r', hr', hg⟩ := record?_updateRecord_of_some hf hr
    refine hasContainer_iff.mpr (.inr ⟨r', hr', ?_⟩)
    rcases hg with rfl | hg
    · exact hc
    · rw [hg.isCompound]
      exact hc

theorem HasSource.updateRecord (hf : ∀ r, s.record? path = some r → Grows r (f r)) {port : String}
    (h : s.HasSource port) : (s.updateRecord path f).HasSource port := by
  obtain ⟨other, r, name, hr, he, hm⟩ := h
  obtain ⟨r', hr', hg⟩ := record?_updateRecord_of_some hf hr
  refine ⟨other, r', name, hr', he, ?_⟩
  rcases hg with rfl | hg
  · exact hm
  · exact hm.imp (fun h => hg.outputs h) fun ⟨hc, h⟩ => ⟨hg.isCompound ▸ hc, hg.inputs h⟩

theorem HasTarget.updateRecord (hf : ∀ r, s.record? path = some r → Grows r (f r)) {port : String}
    (h : s.HasTarget port) : (s.updateRecord path f).HasTarget port := by
  obtain ⟨other, r, name, hr, he, hm⟩ := h
  obtain ⟨r', hr', hg⟩ := record?_updateRecord_of_some hf hr
  refine ⟨other, r', name, hr', he, ?_⟩
  rcases hg with rfl | hg
  · exact hm
  · exact hm.imp (fun h => hg.inputs h) fun ⟨hc, h⟩ => ⟨hg.isCompound ▸ hc, hg.outputs h⟩

/-- **A record that grows keeps a store sound.** -/
theorem Sound.updateRecord (h : Sound s) (hf : ∀ r, s.record? path = some r → Grows r (f r)) :
    Sound (s.updateRecord path f) where
  order_eq := h.order_eq.trans (Assoc.map_fst_modify path f s.records).symm
  nodup := h.nodup
  placed other r' hr' := by
    obtain ⟨r, hr, hg⟩ := record?_of_updateRecord hf hr'
    obtain ⟨h₁, h₂, h₃⟩ := h.placed other r hr
    rcases hg with rfl | hg
    · exact ⟨h₁, h₂, hasContainer_updateRecord hf h₃⟩
    · rw [hg.name, hg.container]
      exact ⟨h₁, h₂, hasContainer_updateRecord hf h₃⟩
  taken container name := by
    refine (h.taken container name).trans ⟨?_, ?_⟩
    · rintro ⟨r, hr, h₁, h₂⟩
      obtain ⟨r', hr', hg⟩ := record?_updateRecord_of_some hf hr
      rcases hg with rfl | hg
      · exact ⟨r', hr', h₁, h₂⟩
      · exact ⟨r', hr', hg.container.trans h₁, hg.name.trans h₂⟩
    · rintro ⟨r', hr', h₁, h₂⟩
      obtain ⟨r, hr, hg⟩ := record?_of_updateRecord hf hr'
      rcases hg with rfl | hg
      · exact ⟨r', hr, h₁, h₂⟩
      · exact ⟨r, hr, hg.container.symm.trans h₁, hg.name.symm.trans h₂⟩
  early := h.early
  sources w hw := (h.sources w hw).updateRecord hf
  targets w hw := (h.targets w hw).updateRecord hf
  driven := h.driven
  valued other r' hr' hv := by
    obtain ⟨r, hr, hg⟩ := record?_of_updateRecord hf hr'
    rcases hg with rfl | hg
    · exact h.valued other r' hr hv
    · rw [hg.nodeType]
      rcases hg.value with he | hc
      · exact h.valued other r hr (he ▸ hv)
      · exact hc

end Update

theorem grows_addInput (r : Record) (port : String) :
    Grows r { r with inputs := r.inputs ++ [port] } :=
  ⟨rfl, rfl, rfl, List.subset_append_left _ _, List.Subset.refl _, .inl rfl⟩

theorem grows_addOutput (r : Record) (port : String) :
    Grows r { r with outputs := r.outputs ++ [port] } :=
  ⟨rfl, rfl, rfl, List.Subset.refl _, List.subset_append_left _ _, .inl rfl⟩

theorem Sound.addInput (h : Sound s) (path port : String) : Sound (s.addInput path port) :=
  h.updateRecord fun r _ => grows_addInput r port

theorem Sound.addOutput (h : Sound s) (path port : String) : Sound (s.addOutput path port) :=
  h.updateRecord fun r _ => grows_addOutput r port

theorem Sound.setValue (h : Sound s) {node : String} {r : Record} (hr : s.record? node = some r)
    (hc : r.nodeType = some NodeType.constant) (value : Float) : Sound (s.setValue node value) := by
  refine h.updateRecord fun r' hr' => ?_
  rw [hr] at hr'
  cases hr'
  exact ⟨rfl, rfl, rfl, List.Subset.refl _, List.Subset.refl _, .inr hc⟩

/-! ## 5. A new wire -/

theorem mem_mark {port other : String} {ports : List String} :
    other ∈ mark port ports ↔ other = port ∨ other ∈ ports := by
  unfold mark
  split
  · rename_i h
    exact ⟨.inr, fun ho => ho.elim (fun he => he ▸ by simpa using h) id⟩
  · simp [or_comm]

/-- The wires that end at a port. -/
def wiresTo (s : Store) (port : String) : List Wire := s.wires.filter (·.target == port)

theorem isDriven_addWire (s : Store) (w : Wire) (port : String) :
    (s.addWire w).isDriven port = (s.isDriven port || port == w.target) := by
  rw [Bool.eq_iff_iff]
  simp only [isDriven, addWire, List.contains_iff_mem, mem_mark, Bool.or_eq_true, beq_iff_eq,
    or_comm]

theorem wiresTo_addWire (s : Store) (w : Wire) (port : String) :
    (s.addWire w).wiresTo port = s.wiresTo port ++ if w.target = port then [w] else [] := by
  rw [wiresTo, addWire, List.filter_append, wiresTo]
  by_cases h : w.target = port
  · simp [h]
  · simp [h, List.filter, beq_false_of_ne h]

theorem Sound.addWire (h : Sound s) {w : Wire} (hs : s.HasSource w.source)
    (ht : s.HasTarget w.target) : Sound (s.addWire w) where
  order_eq := h.order_eq
  nodup := h.nodup
  placed := h.placed
  taken := h.taken
  early := h.early
  sources w' hw' := by
    rcases List.mem_append.mp hw' with hw' | hw'
    · exact h.sources w' hw'
    · rw [List.mem_singleton.mp hw']
      exact hs
  targets w' hw' := by
    rcases List.mem_append.mp hw' with hw' | hw'
    · exact h.targets w' hw'
    · rw [List.mem_singleton.mp hw']
      exact ht
  driven port hp := by
    rcases mem_mark.mp hp with rfl | hp
    · exact ⟨w, List.mem_append_right _ List.mem_cons_self, rfl⟩
    · obtain ⟨w', hw', he⟩ := h.driven port hp
      exact ⟨w', List.mem_append_left _ hw', he⟩
  valued := h.valued

/-! ## 6. Deleting -/

/-- The names that a list of siblings has in use in a container. -/
def namesOf (siblings : List (String × Siblings)) (container : String) : List String :=
  ((siblings.lookup container).getD {}).names

theorem mem_namesOf_releaseName {siblings : List (String × Siblings)} {r : Record}
    {container name : String} :
    name ∈ namesOf (releaseName siblings r) container ↔
      name ∈ namesOf siblings container ∧ ¬(r.container = container ∧ r.name = name) := by
  unfold namesOf releaseName
  rw [Assoc.lookup_modify]
  by_cases hc : container = r.container
  · subst hc
    cases h : siblings.lookup r.container with
    | none => simp
    | some c =>
      simp only [if_true, Option.map_some, Option.getD_some, List.mem_filter, bne_iff_ne, true_and]
      exact and_congr_right fun _ => ne_comm
  · simp [hc, Ne.symm hc]

/-- Names are released one after the other, so a name stays if no record releases it. -/
theorem mem_namesOf_foldl_releaseName (removed : List (String × Record)) {container name : String} :
    ∀ siblings : List (String × Siblings),
      name ∈ namesOf (removed.foldl (fun c e => releaseName c e.2) siblings) container ↔
        name ∈ namesOf siblings container ∧
          ∀ e ∈ removed, ¬(e.2.container = container ∧ e.2.name = name) := by
  induction removed with
  | nil => simp
  | cons e removed ih =>
    intro siblings
    rw [List.foldl_cons, ih, mem_namesOf_releaseName, List.forall_mem_cons, and_assoc]

theorem mem_namesIn_without {node container name : String} :
    name ∈ (s.without node).namesIn container ↔ covers node container = false ∧
      name ∈ s.namesIn container ∧ ∀ e ∈ s.records, covers node e.1 = true →
        ¬(e.2.container = container ∧ e.2.name = name) := by
  have hfold := @mem_namesOf_foldl_releaseName (s.records.filter fun e => covers node e.1)
    container name s.siblings
  have hlookup := Assoc.lookup_filter (fun p => !covers node p) container
    ((s.records.filter fun e => covers node e.1).foldl (fun c e => releaseName c e.2) s.siblings)
  unfold namesIn without
  simp only [hlookup]
  cases hc : covers node container with
  | true => simp
  | false =>
    simp only [Bool.not_false, if_true, true_and]
    rw [show ∀ x : List (String × Siblings), ((x.lookup container).getD {}).names =
      namesOf x container from fun _ => rfl, hfold]
    simp only [List.mem_filter, and_imp]
    rfl

theorem record?_without_eq_some {node path : String} {r : Record} :
    (s.without node).record? path = some r ↔
      covers node path = false ∧ s.record? path = some r := by
  rw [record?_without]
  split
  · rename_i hc
    simp [hc]
  · rename_i hc
    simp [hc]

/-- What is not deleted stands in a container that is not deleted. -/
theorem Sound.hasContainer_without (h : Sound s) {node path : String} {r : Record}
    (hn : (s.record? node).isSome) (hr : (s.without node).record? path = some r) :
    (s.without node).hasContainer r.container = true := by
  obtain ⟨hp, hr⟩ := record?_without_eq_some.mp hr
  obtain ⟨he, hseg, hc⟩ := h.placed path r hr
  rw [he, covers_childPath (h.path_ne_empty hn) (h.path_ne_root hn) hseg.2,
    Bool.or_eq_false_iff] at hp
  rcases hasContainer_iff.mp hc with hroot | ⟨r', hr', hcomp⟩
  · exact hasContainer_iff.mpr (.inl hroot)
  · exact hasContainer_iff.mpr (.inr ⟨r', record?_without_eq_some.mpr ⟨hp.2, hr'⟩, hcomp⟩)

/-- A wire with an end at a port of a deleted node is cut. -/
theorem not_covers_of_port {node path name : String}
    (h : (isWithin node (portPath path name) || isPortOf node (portPath path name)) = false) :
    covers node path = false := by
  rw [Bool.or_eq_false_iff] at h
  rw [Bool.eq_false_iff]
  intro hc
  rw [covers, Bool.or_eq_true, beq_iff_eq] at hc
  rcases hc with rfl | hw
  · rw [isPortOf_portPath_self] at h
    cases h.2
  · rw [isWithin_portPath_of hw] at h
    cases h.1

theorem mem_wires_without {node : String} {w : Wire} :
    w ∈ (s.without node).wires ↔ w ∈ s.wires ∧ touches node w = false := by
  show w ∈ s.wires.filter _ ↔ _
  simp

/-- **Deleting a node keeps a store sound.** -/
theorem Sound.without (h : Sound s) {node : String} (hn : (s.record? node).isSome) :
    Sound (s.without node) := by
  refine
    { order_eq := ?_, nodup := h.nodup.filter _, placed := ?_, taken := ?_,
      early := h.early.filter _, sources := ?_, targets := ?_, driven := ?_, valued := ?_ }
  · show s.order.filter _ = (s.records.filter _).map Prod.fst
    rw [h.order_eq, List.filter_map]
    rfl
  · intro path r hr
    obtain ⟨h₁, h₂, _⟩ := h.placed path r (record?_without_eq_some.mp hr).2
    exact ⟨h₁, h₂, h.hasContainer_without hn hr⟩
  · intro container name
    rw [mem_namesIn_without, h.taken]
    constructor
    · rintro ⟨_, ⟨r, hr, h₁, h₂⟩, hnot⟩
      refine ⟨r, record?_without_eq_some.mpr ⟨?_, hr⟩, h₁, h₂⟩
      rw [Bool.eq_false_iff]
      intro hc
      exact hnot _ (Assoc.mem_of_lookup hr) hc ⟨h₁, h₂⟩
    · rintro ⟨r, hr, rfl, rfl⟩
      obtain ⟨hc, hr⟩ := record?_without_eq_some.mp hr
      have hseg := (h.placed _ r hr).2.1
      have hc' := hc
      rw [covers_childPath (h.path_ne_empty hn) (h.path_ne_root hn) hseg.2,
        Bool.or_eq_false_iff] at hc'
      refine ⟨hc'.2, ⟨r, hr, rfl, rfl⟩, fun e he hcov heq => ?_⟩
      obtain ⟨h₁, h₂⟩ := heq
      rw [(h.placed e.1 e.2 (h.record?_of_mem he)).1, h₁, h₂, hc] at hcov
      cases hcov
  · intro w hw
    obtain ⟨hm, ht⟩ := mem_wires_without.mp hw
    obtain ⟨path, r, name, hr, he, hp⟩ := h.sources w hm
    rw [touches, Bool.or_eq_false_iff, he] at ht
    exact ⟨path, r, name, record?_without_eq_some.mpr ⟨not_covers_of_port ht.1, hr⟩, he, hp⟩
  · intro w hw
    obtain ⟨hm, ht⟩ := mem_wires_without.mp hw
    obtain ⟨path, r, name, hr, he, hp⟩ := h.targets w hm
    rw [touches, Bool.or_eq_false_iff, he] at ht
    exact ⟨path, r, name, record?_without_eq_some.mpr ⟨not_covers_of_port ht.2, hr⟩, he, hp⟩
  · intro port hp
    obtain ⟨hp, hcut⟩ := List.mem_filter.mp hp
    obtain ⟨w, hw, he⟩ := h.driven port hp
    refine ⟨w, List.mem_filter.mpr ⟨hw, ?_⟩, he⟩
    -- the wire that marks the port is not cut, or the mark were gone
    cases ht : touches node w with
    | false => rfl
    | true =>
      have : (s.wires.filter (touches node)).any (·.target == port) = true :=
        List.any_eq_true.mpr ⟨w, List.mem_filter.mpr ⟨hw, ht⟩, by simp [he]⟩
      simp [this] at hcut
  · intro path r hr hv
    exact h.valued path r (record?_without_eq_some.mp hr).2 hv

end Store

end FormulaGraph
