/-
  File:      FormulaGraph/Proofs/Store/Deletion.lean
  Subject:   What deleting a node removes, and what it leaves.

  A node is deleted with what stands inside it, container by container. The store does not follow
  the containers: it compares paths as texts. For nodes that comes to the same, as names have no
  slash. For wires it does not, as a name may have a point: the port `y` of the node `/a.b` has the
  path `/a.b.y`, which begins like a port of `/a`. So a wire is cut also if its end only looks like
  a port of the deleted node.

  * `Inside` -- a node and what its containers lead to;
  * `RemovesNodes`, `RemovesWires` -- exactly the sub-graph is gone, and exactly its wires;
  * `Apart` -- no other node's path looks like that of a port of the node, or the other way round;
  * `deleteNode_removes` -- the nodes are always the right ones, and the wires if the node is apart;
  * `deleteNode_cuts_sibling` -- a node that is not apart, and a wire that is lost with it.
-/
import FormulaGraph.Proofs.Store.Session

namespace FormulaGraph

namespace Store

variable {s s' : Store} {node path port : String}

/-! ## 1. The sub-graph of a node -/

/-- The node itself, and every node whose containers lead to it. -/
inductive Inside (s : Store) (node : String) : String → Prop where
  | self : Inside s node node
  | child {path : String} {r : Record} (found : s.record? path = some r)
      (container : Inside s node r.container) : Inside s node path

/-- **What the containers lead to is what begins with the path of the node.** -/
theorem Sound.covers_iff_inside (h : Sound s) (hn : (s.record? node).isSome)
    (hp : (s.record? path).isSome) : covers node path = true ↔ s.Inside node path := by
  have hne := h.path_ne_empty hn
  have hroot := h.path_ne_root hn
  constructor
  · -- up from the path, container by container; every step makes it shorter
    induction hl : path.length using Nat.strongRecOn generalizing path with
    | ind n ih =>
      intro hc
      obtain ⟨r, hr⟩ := Option.isSome_iff_exists.mp hp
      obtain ⟨he, hseg, hcont⟩ := h.placed path r hr
      have hc' := hc
      rw [he, covers_childPath hne hroot hseg.2, ← he, Bool.or_eq_true, beq_iff_eq] at hc'
      rcases hc' with rfl | hc'
      · exact .self
      · have hsome : (s.record? r.container).isSome := by
          rcases hasContainer_iff.mp hcont with hr₀ | ⟨r', hr', _⟩
          · rw [hr₀, covers, not_isWithin_root hne, Bool.or_false, beq_iff_eq] at hc'
            exact absurd hc'.symm hroot
          · rw [hr']
            rfl
        have hlen : r.container.length < n := by
          rw [← hl, he, childPath, if_neg (h.path_ne_root hsome), String.length_append,
            String.length_append]
          exact Nat.lt_of_lt_of_le (Nat.lt_succ_self _) (Nat.le_add_right _ _)
        exact .child hr (ih _ hlen hsome rfl hc')
  · intro hi
    induction hi with
    | self => exact covers_self node
    | @child path r found container ih =>
      obtain ⟨he, hseg, hcont⟩ := h.placed path r found
      have hsome : (s.record? r.container).isSome := by
        rcases hasContainer_iff.mp hcont with hr₀ | ⟨r', hr', _⟩
        · -- the root stands in no node
          rw [hr₀] at container
          cases container with
          | self => exact absurd rfl hroot
          | child found' _ => exact absurd rfl (h.path_ne_root (by rw [found']; rfl))
        · rw [hr']
          rfl
      rw [he, covers_childPath hne hroot hseg.2, ih hsome, Bool.or_true]

/-- A port of a node of the sub-graph. -/
def PortInside (s : Store) (node port : String) : Prop :=
  ∃ path r name, s.record? path = some r ∧ s.Inside node path ∧ port = portPath path name ∧
    (name ∈ r.inputs ∨ name ∈ r.outputs)

/-- A wire with an end at a port of the sub-graph. -/
def WireInside (s : Store) (node : String) (w : Wire) : Prop :=
  s.PortInside node w.source ∨ s.PortInside node w.target

/-! ## 2. What is to be removed -/

/-- What is left of a list, in its order, once some members have gone. -/
def Remains {α : Type} (gone : α → Prop) (all rest : List α) : Prop :=
  ∃ keep : α → Bool, rest = all.filter keep ∧ ∀ a ∈ all, keep a = true ↔ ¬ gone a

/-- Of the nodes exactly those of the sub-graph are gone; all others are as they were. -/
structure RemovesNodes (s : Store) (node : String) (s' : Store) : Prop where
  gone : ∀ path, s.Inside node path → s'.record? path = none
  kept : ∀ path, ¬ s.Inside node path → s'.record? path = s.record? path
  order : Remains (s.Inside node) s.order s'.order

/-- Of the wires exactly those at ports of the sub-graph are gone, and with them the marks of the
    ports that they led to. -/
structure RemovesWires (s : Store) (node : String) (s' : Store) : Prop where
  wires : Remains (s.WireInside node) s.wires s'.wires
  driven : ∀ port, s'.isDriven port = true ↔ s.isDriven port = true ∧
    ¬ ∃ w ∈ s.wires, s.WireInside node w ∧ w.target = port

theorem Sound.removesNodes (h : Sound s) (hn : (s.record? node).isSome) :
    s.RemovesNodes node (s.without node) where
  gone path hi := by
    rw [record?_without]
    cases hr : s.record? path with
    | none => exact ite_self none
    | some r => rw [if_pos ((h.covers_iff_inside hn (by rw [hr]; rfl)).mpr hi)]
  kept path hi := by
    rw [record?_without]
    cases hr : s.record? path with
    | none => exact ite_self none
    | some r => rw [if_neg fun hc => hi ((h.covers_iff_inside hn (by rw [hr]; rfl)).mp hc)]
  order := by
    refine ⟨(!covers node ·), rfl, fun path hp => ?_⟩
    rw [← h.covers_iff_inside hn (h.mem_order_iff.mp hp), Bool.not_eq_true', Bool.not_eq_true]

/-! ## 3. Ports and what looks like one -/

/-- The path of no other node looks like that of a port of the node, and the path of the node does
    not look like that of a port of another one. -/
def Apart (s : Store) (node : String) : Prop :=
  ∀ path, (s.record? path).isSome → ¬ s.Inside node path →
    isPortOf node path = false ∧ isPortOf path node = false

/-- The order of creation shows whether a node is apart. -/
theorem Sound.apart_iff (h : Sound s) (hn : (s.record? node).isSome) :
    s.Apart node ↔ ∀ path ∈ s.order, covers node path = false →
      isPortOf node path = false ∧ isPortOf path node = false := by
  unfold Apart
  refine forall_congr' fun path => ?_
  rw [h.mem_order_iff]
  refine imp_congr_right fun hp => ?_
  rw [← h.covers_iff_inside hn hp, Bool.not_eq_true]

/-- Of two beginnings of one text, each with a last mark, the shorter is the beginning of what
    stands in front of the other's mark. -/
theorem concat_prefix_cases {α : Type} {xs ys zs : List α} {a b : α} (hx : xs ++ [a] <+: zs)
    (hy : ys ++ [b] <+: zs) :
    (xs = ys ∧ a = b) ∨ xs ++ [a] <+: ys ∨ ys ++ [b] <+: xs := by
  rcases List.prefix_or_prefix_of_prefix hx hy with hxy | hyx
  · rcases List.prefix_concat_iff.mp hxy with he | hp
    · exact .inl (by simpa using he)
    · exact .inr (.inl hp)
  · rcases List.prefix_concat_iff.mp hyx with he | hp
    · exact .inl (by simpa [eq_comm] using he)
    · exact .inr (.inr hp)

/-- What looks like the place of a port of the sub-graph is one, if the node is apart. -/
theorem Apart.covers_of_port (h : s.Apart node) (hs : Sound s) (hn : (s.record? node).isSome)
    (hp : (s.record? path).isSome) {name : String}
    (hport : (isWithin node (portPath path name) || isPortOf node (portPath path name)) = true) :
    covers node path = true := by
  have hpath : path.toList ++ ['.'] <+: (portPath path name).toList := by
    rw [toList_portPath]
    exact ⟨name.toList, by simp⟩
  -- a node outside would look like a port, or the other way round
  have houtside : node.toList ++ ['.'] <+: path.toList ∨ path.toList ++ ['.'] <+: node.toList →
      covers node path = true := by
    intro hlike
    by_cases hi : s.Inside node path
    · exact (hs.covers_iff_inside hn hp).mpr hi
    · obtain ⟨h₁, h₂⟩ := h path hp hi
      rcases hlike with hlike | hlike
      · rw [isPortOf_iff.mpr hlike] at h₁
        cases h₁
      · rw [isPortOf_iff.mpr hlike] at h₂
        cases h₂
  rw [Bool.or_eq_true, isWithin_iff, isPortOf_iff] at hport
  rcases hport with hwithin | hown
  · rcases concat_prefix_cases hwithin hpath with ⟨-, hmark⟩ | hbelow | hlike
    · exact absurd hmark (by decide)
    · rw [covers, isWithin_iff.mpr hbelow, Bool.or_true]
    · exact houtside (.inr hlike)
  · rcases concat_prefix_cases hown hpath with ⟨he, -⟩ | hlike | hlike
    · rw [String.toList_inj.mp he, covers_self]
    · exact houtside (.inl hlike)
    · exact houtside (.inr hlike)

/-- A port that a record lists is in the sub-graph if its path is. -/
theorem Sound.belongs_of_portInside (hs : Sound s) (hn : (s.record? node).isSome)
    (h : s.PortInside node port) : (isWithin node port || isPortOf node port) = true := by
  obtain ⟨path, r, name, hr, hi, rfl, -⟩ := h
  have hc : covers node path = true := (hs.covers_iff_inside hn (by rw [hr]; rfl)).mpr hi
  cases hb : isWithin node (portPath path name) || isPortOf node (portPath path name) with
  | true => rfl
  | false =>
    rw [not_covers_of_port hb] at hc
    cases hc

theorem Sound.touches_of_wireInside (hs : Sound s) (hn : (s.record? node).isSome) {w : Wire}
    (h : s.WireInside node w) : touches node w = true := by
  simp only [touches]
  rcases h with h | h
  · rw [hs.belongs_of_portInside hn h, Bool.true_or]
  · rw [hs.belongs_of_portInside hn h, Bool.or_true]

theorem Apart.wireInside_of_touches (h : s.Apart node) (hs : Sound s)
    (hn : (s.record? node).isSome) {w : Wire} (hw : w ∈ s.wires) (ht : touches node w = true) :
    s.WireInside node w := by
  have hinside : ∀ {path r name}, s.record? path = some r → (name ∈ r.inputs ∨ name ∈ r.outputs) →
      (isWithin node (portPath path name) || isPortOf node (portPath path name)) = true →
      s.PortInside node (portPath path name) := by
    intro path r name hr hm hb
    have hp : (s.record? path).isSome := by
      rw [hr]
      rfl
    have hi := (hs.covers_iff_inside hn hp).mp (h.covers_of_port hs hn hp hb)
    exact ⟨path, r, name, hr, hi, rfl, hm⟩
  rw [touches, Bool.or_eq_true] at ht
  rcases ht with ht | ht
  · obtain ⟨path, r, name, hr, he, hm⟩ := hs.sources w hw
    rw [he] at ht
    exact .inl (he ▸ hinside hr (hm.elim .inr fun hm => .inl hm.2) ht)
  · obtain ⟨path, r, name, hr, he, hm⟩ := hs.targets w hw
    rw [he] at ht
    exact .inr (he ▸ hinside hr (hm.elim .inl fun hm => .inr hm.2) ht)

/-- **A node that is apart takes its own wires with it, and no others.** -/
theorem Apart.removesWires (h : s.Apart node) (hs : Sound s) (hn : (s.record? node).isSome) :
    s.RemovesWires node (s.without node) := by
  have htouches : ∀ w ∈ s.wires, touches node w = true ↔ s.WireInside node w := fun w hw =>
    ⟨h.wireInside_of_touches hs hn hw, hs.touches_of_wireInside hn⟩
  refine ⟨⟨(!touches node ·), rfl, fun w hw => ?_⟩, fun port => ?_⟩
  · rw [← htouches w hw, Bool.not_eq_true', Bool.not_eq_true]
  · simp only [isDriven, without, List.contains_iff_mem, List.mem_filter, Bool.not_eq_true',
      List.any_eq_false, List.mem_filter, beq_iff_eq]
    refine and_congr_right fun _ => ⟨fun hnone => ?_, fun hnone w hw ht => ?_⟩
    · rintro ⟨w, hw, hi, rfl⟩
      exact hnone w ⟨hw, (htouches w hw).mpr hi⟩ rfl
    · exact hnone ⟨w, hw.1, (htouches w hw.1).mp hw.2, ht⟩

/-- Without points in the names every node is apart. -/
theorem Reachable.apart (h : s.Reachable IsPlain) (hn : (s.record? node).isSome) :
    s.Apart node := by
  have hs : Sound s := h.sound fun _ hname => hname.isSegment
  have hplain : ∀ {p : String}, (s.record? p).isSome → '.' ∉ p.toList := fun hp =>
    h.plainPaths _ (hs.mem_order_iff.mpr hp)
  have hlike : ∀ {p q : String}, '.' ∉ q.toList → isPortOf p q = false := by
    intro p q hq
    rw [Bool.eq_false_iff, ne_eq, isPortOf_iff]
    exact fun hp => hq (hp.subset (by simp))
  exact fun path hp _ => ⟨hlike (hplain hp), hlike (hplain hn)⟩

/-! ## 4. Deleting -/

/-- **Deleting a node removes exactly its sub-graph**: in every store that is reached with segments
    for names the call succeeds, unless it is told to fail, and takes the node away with what its
    containers lead to, and nothing else. No wire at a port of these is left. If the node is apart,
    no other wire is cut and no other mark is lost. -/
theorem deleteNode_removes (hs : s.Reachable IsSegment) (hn : (s.record? node).isSome)
    (hcall : s.refuses .deleteNode = false) :
    ∃ s', deleteNode node s = .ok () s' ∧ s.RemovesNodes node s' ∧
      (∀ w ∈ s'.wires, w ∈ s.wires ∧ ¬ s.WireInside node w) ∧
      (s.Apart node → s.RemovesWires node s') := by
  have hsound : Sound s := hs.sound fun _ hname => hname
  refine ⟨(s.counted .deleteNode).without node, deleteNode_ok_iff.mpr ⟨hcall, hn, rfl⟩, ?_, ?_, ?_⟩
  · obtain ⟨hgone, hkept, horder⟩ := hsound.removesNodes hn
    exact ⟨hgone, hkept, horder⟩
  · intro w hw
    obtain ⟨hm, ht⟩ := mem_wires_without.mp hw
    refine ⟨hm, fun hi => ?_⟩
    have hi' := hsound.touches_of_wireInside hn hi
    rw [ht] at hi'
    cases hi'
  · intro hapart
    obtain ⟨hwires, hdriven⟩ := hapart.removesWires hsound hn
    exact ⟨hwires, hdriven⟩

/-- A compound with a point in its name is left alone, wire and mark included; the deleted one goes
    with the compound inside it and with the wire that crosses its border. -/
theorem deleteNode_removes_nested :
    let qs : List Request :=
      [.createCompound "/" "b.c", .createInputPort "/b.c" "x" false, .createOutputPort "/b.c" "y",
        .connect "/b.c" (.compoundInput "/b.c.x") (.compoundOutput "/b.c.y") .inputToOutput,
        .createCompound "/" "b", .createCompound "/b" "a", .createInputPort "/b" "x" false,
        .connect "/b" (.compoundInput "/b.x") (.node "/b/a") .symbolToInput,
        .createNode "/b/a" .constant]
    (session qs).order = ["/b.c", "/b", "/b/a", "/b/a/float"] ∧ (session qs).wires.length = 2 ∧
      ∃ s', deleteNode "/b/a" (session qs) = .ok () s' ∧ (session qs).RemovesNodes "/b/a" s' ∧
        (∀ w ∈ s'.wires, w ∈ (session qs).wires ∧ ¬ (session qs).WireInside "/b/a" w) ∧
        (session qs).RemovesWires "/b/a" s' := by
  intro qs
  have hnames : ∀ q ∈ qs, q.Names IsSegment := by decide
  have hs : (session qs).Reachable IsSegment := reachable_session hnames
  have hn : ((session qs).record? "/b/a").isSome := by decide +kernel
  have hapart : (session qs).Apart "/b/a" :=
    ((hs.sound fun _ hname => hname).apart_iff hn).mpr (by decide +kernel)
  obtain ⟨s', hrun, hnodes, hcut, hwires⟩ := deleteNode_removes hs hn (by decide +kernel)
  exact ⟨by decide +kernel, by decide +kernel, s', hrun, hnodes, hcut, hwires hapart⟩

/-- **A wire of another compound can be lost**: the ports of `/a.b` look like ports of `/a`, and go
    without their wire when `/a` is deleted. -/
theorem deleteNode_cuts_sibling :
    let qs : List Request :=
      [.createCompound "/" "a", .createCompound "/" "a.b", .createInputPort "/a.b" "x" false,
        .createOutputPort "/a.b" "y",
        .connect "/a.b" (.compoundInput "/a.b.x") (.compoundOutput "/a.b.y") .inputToOutput]
    (∀ q ∈ qs, q.Names IsSegment) ∧
      ∃ s', deleteNode "/a" (session qs) = .ok () s' ∧ (session qs).RemovesNodes "/a" s' ∧
        s'.order = ["/a.b"] ∧ s'.wires = [] ∧ ¬ (session qs).RemovesWires "/a" s' := by
  intro qs
  have hnames : ∀ q ∈ qs, q.Names IsSegment := by decide
  have hsound : Sound (session qs) := (reachable_session hnames).sound fun _ hname => hname
  have hn : ((session qs).record? "/a").isSome := by decide +kernel
  refine ⟨hnames, ((session qs).counted .deleteNode).without "/a",
    deleteNode_ok_iff.mpr ⟨by decide +kernel, hn, rfl⟩, ?_, by decide +kernel,
    by decide +kernel, ?_⟩
  · obtain ⟨hgone, hkept, horder⟩ := hsound.removesNodes hn
    exact ⟨hgone, hkept, horder⟩
  · rintro ⟨⟨keep, hrest, hkeep⟩, -⟩
    -- only `/a` itself is inside, and it has no ports
    have hports : ∀ port, ¬ (session qs).PortInside "/a" port := by
      rintro port ⟨path, r, name, hr, hi, -, hm⟩
      have hp : ((session qs).record? path).isSome := by
        rw [hr]
        rfl
      have hc := (hsound.covers_iff_inside hn hp).mpr hi
      have hbare : ∀ p ∈ (session qs).order, covers "/a" p = true →
          ((session qs).record? p).all (fun r => r.inputs.isEmpty && r.outputs.isEmpty) = true := by
        decide +kernel
      have hempty := hbare path (hsound.mem_order_iff.mpr hp) hc
      rw [hr, Option.all_some, Bool.and_eq_true, List.isEmpty_iff, List.isEmpty_iff] at hempty
      rw [hempty.1, hempty.2] at hm
      exact hm.elim List.not_mem_nil List.not_mem_nil
    have hall : (session qs).wires.filter keep = (session qs).wires :=
      List.filter_eq_self.mpr fun w hw => (hkeep w hw).mpr fun hi =>
        hi.elim (hports _) (hports _)
    have hlost : (((session qs).counted .deleteNode).without "/a").wires ≠ (session qs).wires := by
      decide +kernel
    exact hlost (hrest.trans hall)

end Store

end FormulaGraph
