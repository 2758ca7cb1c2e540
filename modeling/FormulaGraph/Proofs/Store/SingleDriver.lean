/-
  File:      FormulaGraph/Proofs/Store/SingleDriver.lean
  Subject:   When no port has two wires.

  A wire to a node goes to its first input without a wire. If there is none, the node gets one more
  input, named by the number of inputs it has: `input`, `input_1`, `input_2`, … That name is not
  looked up among the ports that are there. For an operator it is new, since all its inputs are
  named so. A compound has ports with names of the requests' choice, and one of them may bear the
  name already: then the compound lists an input twice, and a second wire goes to a port that has
  one.

  * `Record.Tidy` -- the names of the inputs still to come are new;
  * `Settled` -- a port has one wire if it is marked as driven, and none else;
  * `Outcome.tidy`, `Outcome.settledAt` -- what one request keeps;
  * `session_singleDriver` -- operators always have one wire a port, and so do compounds whose ports
    were given other names;
  * `session_two_drivers` -- a session that drives a port of a compound twice.
-/
import FormulaGraph.Proofs.Store.Session

namespace FormulaGraph

open Store (addedInput inputName)

/-! ## 1. Names that are still to come -/

/-- No input stands twice or before the place that its number says, and no output of a compound has
    the name of an input that may be added. -/
structure Record.Tidy (r : Record) : Prop where
  nodup : r.inputs.Nodup
  early : ∀ i k, r.inputs[i]? = some (addedInput k) → k ≤ i
  outputs : r.isCompound = true → ∀ k, addedInput k ∉ r.outputs

namespace Record.Tidy

variable {r r' : Record} {name : String}

/-- The next input has a new name. -/
theorem addedInput_notMem (h : r.Tidy) : addedInput r.inputs.length ∉ r.inputs := by
  intro hm
  obtain ⟨i, hi⟩ := List.mem_iff_getElem?.mp hm
  have hle : r.inputs.length ≤ i := h.early i _ hi
  have hlt : i < r.inputs.length := (List.getElem?_eq_some_iff.mp hi).1
  omega

/-- A record that has become tidy by getting ports was tidy. -/
theorem of_grown (h : r'.Tidy) (hi : r.inputs <+: r'.inputs) (ho : r.outputs <+: r'.outputs)
    (hc : r.isCompound = r'.isCompound) : r.Tidy where
  nodup := h.nodup.sublist hi.sublist
  early i k hk := by
    have hlt : i < r.inputs.length := (List.getElem?_eq_some_iff.mp hk).1
    obtain ⟨more, he⟩ := hi
    exact h.early i k (by rw [← he, List.getElem?_append_left hlt, hk])
  outputs hcomp k hm := h.outputs (hc ▸ hcomp) k (ho.subset hm)

theorem addInput (h : r.Tidy) (hn : name ∉ r.inputs)
    (hk : ∀ k, name = addedInput k → k ≤ r.inputs.length) :
    Tidy { r with inputs := r.inputs ++ [name] } where
  nodup := List.nodup_append.mpr ⟨h.nodup, List.nodup_singleton name, fun a ha b hb => by
    rw [List.mem_singleton.mp hb]
    exact fun he => hn (he ▸ ha)⟩
  early i k hi := by
    rcases Nat.lt_or_ge i r.inputs.length with hlt | hge
    · exact h.early i k (by rwa [List.getElem?_append_left hlt] at hi)
    · rw [List.getElem?_append_right hge, List.getElem?_singleton] at hi
      split at hi
      · exact Nat.le_trans (hk k (Option.some.inj hi)) hge
      · cases hi
  outputs := h.outputs

theorem addOutput (h : r.Tidy) (hn : ∀ k, name ≠ addedInput k) :
    Tidy { r with outputs := r.outputs ++ [name] } where
  nodup := h.nodup
  early := h.early
  outputs hc k hm := by
    rcases List.mem_append.mp hm with hm | hm
    · exact h.outputs hc k hm
    · exact hn k (List.mem_singleton.mp hm).symm

end Record.Tidy

theorem addedInput_succ (k : Nat) : addedInput (k + 1) = numberedName inputName (k + 1) := rfl

/-- A requested input gets no number beyond its place, unless the request itself gave one. -/
theorem le_of_uniqueName_eq {name : String} {ports : List String} {k : Nat}
    (hn : ∀ j, name ≠ addedInput (j + 1)) (he : (uniqueName name 0 ports).1 = addedInput k) :
    k ≤ ports.length := by
  cases k with
  | zero => exact Nat.zero_le _
  | succ k =>
    unfold uniqueName at he
    split at he
    · rename_i hm
      rw [addedInput_succ] at he
      have hk := (numberedName_inj.mp he).2
      exact hk ▸ freeNumber_le_length hm
    · exact absurd he (hn k)

/-- A requested output gets the name of an added input only if the request gave one. -/
theorem uniqueName_ne_addedInput {name : String} {ports : List String}
    (hn : ∀ k, name ≠ addedInput k) (k : Nat) : (uniqueName name 0 ports).1 ≠ addedInput k := by
  intro he
  rcases uniqueName_cases name 0 ports with hbare | ⟨j, hnumbered⟩
  · exact hn k (hbare.symm.trans he)
  · rw [hnumbered] at he
    cases k with
    | zero =>
      -- `input` has no underscore
      have hm : '_' ∈ (numberedName name j).toList := by simp
      rw [he] at hm
      exact absurd hm (by decide)
    | succ k => exact hn 0 (numberedName_inj.mp he).1

namespace Store

variable {s s' : Store} {path port : String} {q : Request}

/-- A request leaves the names of added inputs alone at the compound `path`. An input may be called
    `input`, which is the name of a first one. -/
def Request.Spares (path : String) : Request → Prop
  | .createInputPort compound name _ => compound = path → ∀ k, name ≠ addedInput (k + 1)
  | .createOutputPort compound name => compound = path → ∀ k, name ≠ addedInput k
  | _ => True

theorem tidy_compoundRecord (parent name : String) : (compoundRecord parent name).Tidy where
  nodup := List.nodup_nil
  early i k hi := by cases hi
  outputs _ k hm := by cases hm

theorem tidy_nodeRecord (compound : String) (type : NodeType) :
    (nodeRecord compound type).Tidy where
  nodup := by
    unfold nodeRecord
    split
    · exact List.nodup_nil
    · exact List.nodup_singleton _
  early i k hi := by
    unfold nodeRecord at hi
    split at hi
    · cases hi
    · rw [List.getElem?_singleton] at hi
      split at hi
      · have hk : addedInput k = addedInput 0 := (Option.some.inj hi).symm
        rw [addedInput_injective hk]
        exact Nat.zero_le i
      · cases hi
  outputs hc := by cases hc

/-- A record that is found after a change was there before it, or is what the change made of one. -/
theorem record?_updateRecord_cases {other : String} {f : Record → Record} {r' : Record}
    (h : (s.updateRecord other f).record? path = some r') :
    (∃ r, s.record? path = some r ∧ other = path ∧ r' = f r) ∨ s.record? path = some r' := by
  rw [record?_updateRecord] at h
  split at h
  · rename_i he
    obtain ⟨r, hr, hf⟩ := Option.map_eq_some_iff.mp h
    exact .inl ⟨r, hr, he.symm, hf.symm⟩
  · exact .inr h

theorem record?_insert_cases {container : String} {new r' : Record}
    (h : (s.insert container new).2.record? path = some r') :
    r' = { new with name := s.nameFor container new.name } ∨ s.record? path = some r' := by
  rw [record?_insert] at h
  split at h
  · exact .inl (Option.some.inj h).symm
  · exact .inr h

/-- **What one request keeps tidy**: an operator, and a compound that it spares. -/
theorem Outcome.tidy (ho : Outcome s q s') {r' : Record} (hr' : s'.record? path = some r')
    (hq : r'.isCompound = true → q.Spares path)
    (h : ∀ r, s.record? path = some r → r.isCompound = r'.isCompound → r.Tidy) : r'.Tidy := by
  cases ho with
  | unchanged records order siblings wires driven =>
    rw [record?, records] at hr'
    exact h r' hr' rfl
  | @createCompound parent name container =>
    rcases record?_insert_cases hr' with rfl | hr'
    · exact (tidy_compoundRecord parent name).of_grown (List.prefix_refl _) (List.prefix_refl _) rfl
    · exact h r' hr' rfl
  | @createInputPort compound name skip r found isCompound =>
    rcases record?_updateRecord_cases hr' with ⟨r₀, hr₀, rfl, rfl⟩ | hr'
    · obtain rfl : r = r₀ := Option.some.inj (found.symm.trans hr₀)
      exact (h r found rfl).addInput (uniqueName_notMem name 0 r.inputs)
        fun k hk => le_of_uniqueName_eq (hq isCompound rfl) hk
    · exact h r' hr' rfl
  | @createOutputPort compound name r found isCompound =>
    rcases record?_updateRecord_cases hr' with ⟨r₀, hr₀, rfl, rfl⟩ | hr'
    · obtain rfl : r = r₀ := Option.some.inj (found.symm.trans hr₀)
      exact (h r found rfl).addOutput (uniqueName_ne_addedInput (hq isCompound rfl))
    · exact h r' hr' rfl
  | @createNode compound type container =>
    rcases record?_insert_cases hr' with rfl | hr'
    · exact (tidy_nodeRecord compound type).of_grown (List.prefix_refl _) (List.prefix_refl _) rfl
    · exact h r' hr' rfl
  | setLiteralValue found constant =>
    rcases record?_updateRecord_cases hr' with ⟨r₀, hr₀, rfl, rfl⟩ | hr'
    · exact (h r₀ hr₀ rfl).of_grown (List.prefix_refl _) (List.prefix_refl _) rfl
    · exact h r' hr' rfl
  | connect leaves arrives =>
    cases arrives with
    | free within found first => exact h r' hr' rfl
    | @added other r within found full =>
      rcases record?_updateRecord_cases (s := s.counted .connect) hr' with
        ⟨r₀, hr₀, rfl, rfl⟩ | hr'
      · obtain rfl : r = r₀ := Option.some.inj (found.symm.trans hr₀)
        have htidy := h r found rfl
        refine htidy.addInput htidy.addedInput_notMem fun k hk => ?_
        exact Nat.le_of_eq (addedInput_injective hk).symm
      · exact h r' hr' rfl
    | output found isCompound listed idle => exact h r' hr' rfl
  | deleteNode found => exact h r' (record?_without_eq_some.mp hr').2 rfl

/-- **Operators are always tidy**, and so are compounds that every request of a session spares. -/
theorem tidy_session {qs : List Request} {r : Record} (hr : (session qs).record? path = some r)
    (hq : r.isCompound = true → ∀ q ∈ qs, q.Spares path) : r.Tidy := by
  induction qs using List.reverseRecOn generalizing r with
  | nil => cases hr
  | append_singleton qs q ih =>
    rw [session_concat] at hr
    refine (q.outcome (session qs)).tidy hr
      (fun hc => hq hc q (List.mem_append_right qs List.mem_cons_self)) fun r₀ hr₀ hc => ?_
    exact ih hr₀ fun hc₀ q' hq' => hq (hc ▸ hc₀) q' (List.mem_append_left [q] hq')

/-! ## 2. One wire for each mark -/

/-- A port has one wire if it is marked as driven, and else none. -/
def Settled (s : Store) (port : String) : Prop :=
  (s.wiresTo port).length = if s.isDriven port then 1 else 0

theorem mem_wiresTo {w : Wire} : w ∈ s.wiresTo port ↔ w ∈ s.wires ∧ w.target = port := by
  simp [wiresTo]

theorem wiresTo_eq_nil_iff : s.wiresTo port = [] ↔ ∀ w ∈ s.wires, w.target ≠ port := by
  simp [wiresTo, List.filter_eq_nil_iff]

theorem settled_of_wiresTo_eq_nil (hw : s.wiresTo port = []) (hd : s.isDriven port = false) :
    s.Settled port := by
  rw [Settled, hw, hd]
  rfl

theorem Settled.wiresTo_eq_nil (h : s.Settled port) (hd : s.isDriven port = false) :
    s.wiresTo port = [] := by
  rw [Settled, hd] at h
  exact List.length_eq_zero_iff.mp h

theorem Settled.driven_iff (h : s.Settled port) :
    s.isDriven port = true ↔ ∃ w ∈ s.wires, w.target = port := by
  constructor
  · intro hd
    rw [Settled, hd] at h
    obtain ⟨w, hw⟩ := List.length_eq_one_iff.mp h
    have hm : w ∈ s.wiresTo port := hw ▸ List.mem_cons_self
    exact ⟨w, mem_wiresTo.mp hm⟩
  · intro hw
    obtain ⟨w, hm, ht⟩ := hw
    cases hd : s.isDriven port with
    | true => rfl
    | false => exact absurd ht (wiresTo_eq_nil_iff.mp (h.wiresTo_eq_nil hd) w hm)

theorem Settled.length_le_one (h : s.Settled port) : (s.wiresTo port).length ≤ 1 := by
  rw [h]
  split
  · exact Nat.le_refl 1
  · exact Nat.zero_le 1

theorem Settled.addWire (h : s.Settled port) {w : Wire}
    (hw : w.target = port → s.isDriven port = false) : (s.addWire w).Settled port := by
  unfold Settled
  rw [wiresTo_addWire, isDriven_addWire]
  by_cases ht : w.target = port
  · have hd := hw ht
    rw [h.wiresTo_eq_nil hd, hd, ht]
    simp
  · have hne : (port == w.target) = false := beq_false_of_ne (Ne.symm ht)
    rw [if_neg ht, hne, List.append_nil, Bool.or_false]
    exact h

theorem wiresTo_without (s : Store) (node port : String) :
    (s.without node).wiresTo port = (s.wiresTo port).filter (!touches node ·) := by
  show (s.wires.filter _).filter _ = _
  rw [wiresTo, List.filter_filter, List.filter_filter]
  exact List.filter_congr fun w _ => Bool.and_comm _ _

theorem isDriven_without (s : Store) (node port : String) :
    (s.without node).isDriven port =
      (s.isDriven port && !(s.wiresTo port).any (touches node)) := by
  rw [Bool.eq_iff_iff]
  simp only [isDriven, without, wiresTo, List.contains_iff_mem, List.mem_filter, List.any_filter,
    Bool.and_eq_true, Bool.and_comm]

/-- Deleting cuts the wire of a port together with its mark. -/
theorem Settled.without (h : s.Settled port) (node : String) : (s.without node).Settled port := by
  unfold Settled at h ⊢
  rw [wiresTo_without, isDriven_without]
  cases hd : s.isDriven port with
  | false =>
    rw [hd] at h
    rw [List.length_eq_zero_iff.mp h]
    rfl
  | true =>
    rw [hd] at h
    obtain ⟨w, hw⟩ := List.length_eq_one_iff.mp h
    rw [hw]
    cases ht : touches node w with
    | true => simp [ht]
    | false => simp [ht]

/-! ## 3. The ports of a tidy record -/

/-- A wire to a port tells the record that has the port. -/
theorem Sound.record_of_target (hs : Sound s) (hp : PlainPaths s) (hpath : '.' ∉ path.toList)
    {name : String} {w : Wire} (hw : w ∈ s.wires) (ht : w.target = portPath path name) :
    ∃ r, s.record? path = some r ∧ (name ∈ r.inputs ∨ r.isCompound = true ∧ name ∈ r.outputs) := by
  obtain ⟨other, r, name', hr, he, hm⟩ := hs.targets w hw
  have hother : '.' ∉ other.toList := hp other (hs.mem_order_iff.mpr (by rw [hr]; rfl))
  obtain ⟨rfl, rfl⟩ := (portPath_inj hother hpath).mp (he.symm.trans ht)
  exact ⟨r, hr, hm⟩

/-- A port that no record has is neither driven nor the end of a wire. -/
theorem Sound.idle_of_no_port (hs : Sound s) (hp : PlainPaths s) (hpath : '.' ∉ path.toList)
    {name : String} (hn : ∀ r, s.record? path = some r →
      name ∉ r.inputs ∧ (r.isCompound = true → name ∉ r.outputs)) :
    s.wiresTo (portPath path name) = [] ∧ s.isDriven (portPath path name) = false := by
  have hnone : ∀ w ∈ s.wires, w.target ≠ portPath path name := by
    intro w hw ht
    obtain ⟨r, hr, hm⟩ := hs.record_of_target hp hpath hw ht
    obtain ⟨hin, hout⟩ := hn r hr
    rcases hm with hm | ⟨hc, hm⟩
    · exact hin hm
    · exact hout hc hm
  refine ⟨wiresTo_eq_nil_iff.mpr hnone, ?_⟩
  rw [Bool.eq_false_iff]
  intro hd
  obtain ⟨w, hw, ht⟩ := hs.driven (portPath path name) (by simpa [isDriven] using hd)
  exact hnone w hw ht

/-- The input that a tidy record gets next is not driven. -/
theorem Sound.isDriven_addedInput (hs : Sound s) (hp : PlainPaths s) {r : Record}
    (hr : s.record? path = some r) (ht : r.Tidy) :
    s.isDriven (portPath path (addedInput r.inputs.length)) = false := by
  have hpath : '.' ∉ path.toList := hp path (hs.mem_order_iff.mpr (by rw [hr]; rfl))
  refine (hs.idle_of_no_port hp hpath fun r' hr' => ?_).2
  obtain rfl : r = r' := Option.some.inj (hr.symm.trans hr')
  exact ⟨ht.addedInput_notMem, fun hc => ht.outputs hc _⟩

/-- All ports of a record are settled, if the record is tidy. -/
def SettledAt (s : Store) (path : String) : Prop :=
  ∀ r, s.record? path = some r → r.Tidy → ∀ name, s.Settled (portPath path name)

/-- A record that only gets ports keeps its wires. -/
theorem SettledAt.updateRecord (h : s.SettledAt path) {other : String} {f : Record → Record}
    (hi : ∀ r, r.inputs <+: (f r).inputs) (ho : ∀ r, r.outputs <+: (f r).outputs)
    (hc : ∀ r, r.isCompound = (f r).isCompound) : (s.updateRecord other f).SettledAt path := by
  intro r' hr' ht name
  rcases record?_updateRecord_cases hr' with ⟨r, hr, _, rfl⟩ | hr
  · exact h r hr (ht.of_grown (hi r) (ho r) (hc r)) name
  · exact h r' hr ht name

theorem SettledAt.addInput (h : s.SettledAt path) (other name : String) :
    (s.addInput other name).SettledAt path :=
  h.updateRecord (fun r => List.prefix_append r.inputs [name]) (fun r => List.prefix_refl r.outputs)
    fun _ => rfl

/-- A new record has no wires. -/
theorem SettledAt.insert (h : s.SettledAt path) (hs : Sound s) (hp : PlainPaths s)
    {container : String} {r : Record} (hc : s.hasContainer container = true) (hn : IsPlain r.name) :
    (s.insert container r).2.SettledAt path := by
  intro r' hr' ht name
  by_cases he : path = s.pathFor container r.name
  · have hfresh : s.record? path = none := he ▸ hs.record?_pathFor hc hn.isSegment
    have hpath : '.' ∉ path.toList := he ▸ hp.pathFor hs hc hn
    have hnone : s.wiresTo (portPath path name) = [] ∧ s.isDriven (portPath path name) = false :=
      hs.idle_of_no_port hp hpath fun r hr => by
        rw [hfresh] at hr
        cases hr
    exact settled_of_wiresTo_eq_nil hnone.1 hnone.2
  · rw [record?_insert, if_neg he] at hr'
    exact h r' hr' ht name

/-- **A wire goes to a port without one**, of a record that is tidy. -/
theorem TargetPort.isDriven {compound stop : String} {target : PortRef} {s₁ : Store}
    (ht : TargetPort s compound target stop s₁) (hs : Sound s) (hp : PlainPaths s) {name : String}
    (he : stop = portPath path name) {r : Record} (hr : s.record? path = some r) (htidy : r.Tidy) :
    s.isDriven stop = false := by
  cases ht with
  | free within found first => simpa using List.find?_some first
  | @added other r' within found full =>
    have hpath : ∀ {p : String} {r : Record}, s.record? p = some r → '.' ∉ p.toList :=
      fun hr => hp _ (hs.mem_order_iff.mpr (by rw [hr]; rfl))
    obtain ⟨rfl, _⟩ := (portPath_inj (hpath found) (hpath hr)).mp he
    obtain rfl : r = r' := Option.some.inj (hr.symm.trans found)
    exact hs.isDriven_addedInput hp hr htidy
  | output found isCompound listed idle => exact idle

/-- A port that is added for a wire leaves the marks as they are. -/
theorem TargetPort.isDriven_eq {compound stop : String} {target : PortRef} {s₁ : Store}
    (ht : TargetPort s compound target stop s₁) (port : String) :
    s₁.isDriven port = s.isDriven port := by
  cases ht <;> rfl

/-- What is tidy once a wire has its port was tidy before. -/
theorem TargetPort.tidy_before {compound stop : String} {target : PortRef} {s₁ : Store}
    (ht : TargetPort s compound target stop s₁) {r' : Record} (hr' : s₁.record? path = some r')
    (htidy : r'.Tidy) : ∃ r, s.record? path = some r ∧ r.Tidy := by
  cases ht with
  | free within found first => exact ⟨r', hr', htidy⟩
  | added within found full =>
    rcases record?_updateRecord_cases hr' with ⟨r, hr, _, rfl⟩ | hr
    · exact ⟨r, hr, htidy.of_grown (List.prefix_append _ _) (List.prefix_refl _) rfl⟩
    · exact ⟨r', hr, htidy⟩
  | output found isCompound listed idle => exact ⟨r', hr', htidy⟩

theorem SettledAt.target {compound stop : String} {target : PortRef} {s₁ : Store}
    (h : s.SettledAt path) (ht : TargetPort s compound target stop s₁) : s₁.SettledAt path := by
  cases ht with
  | free within found first => exact h
  | added within found full => exact h.addInput _ _
  | output found isCompound listed idle => exact h

/-- **What one request keeps settled.** -/
theorem Outcome.settledAt (ho : Outcome s q s') (hs : Sound s) (hp : PlainPaths s)
    (hq : q.Names IsPlain) (h : s.SettledAt path) : s'.SettledAt path := by
  cases ho with
  | unchanged records order siblings wires driven =>
    intro r hr ht name
    rw [record?, records] at hr
    have hsettled := h r hr ht name
    unfold Settled wiresTo isDriven at hsettled ⊢
    rw [wires, driven]
    exact hsettled
  | createCompound container =>
    exact SettledAt.insert (s := s.counted _) h (hs.counted _) hp container hq
  | createInputPort found isCompound => exact SettledAt.addInput (s := s.counted _) h _ _
  | @createOutputPort compound name r found isCompound =>
    exact SettledAt.updateRecord (s := s.counted _) h (fun r => List.prefix_refl r.inputs)
      (fun r => List.prefix_append r.outputs _) fun _ => rfl
  | createNode container =>
    exact SettledAt.insert (s := s.counted _) h (hs.counted _) hp container hq
  | setLiteralValue found constant =>
    exact SettledAt.updateRecord (s := s.counted _) h (fun r => List.prefix_refl r.inputs)
      (fun r => List.prefix_refl r.outputs) fun _ => rfl
  | @connect compound start stop source target kind s₁ leaves arrives =>
    intro r' hr' ht name
    obtain ⟨r, hr, htidy⟩ := arrives.tidy_before hr' ht
    have hsettled : s₁.Settled (portPath path name) :=
      SettledAt.target (s := s.counted .connect) h arrives r' hr' ht name
    refine hsettled.addWire fun he => ?_
    rw [arrives.isDriven_eq, ← he]
    exact arrives.isDriven (hs.counted _) hp he hr htidy
  | deleteNode found =>
    intro r hr ht name
    exact (h r (record?_without_eq_some.mp hr).2 ht name).without _

theorem Reachable.settledAt (h : Reachable IsPlain s) (path : String) : s.SettledAt path := by
  induction h with
  | empty => exact fun r hr => by cases hr
  | step hr q names ih =>
    exact (q.outcome _).settledAt (hr.sound fun _ hn => hn.isSegment) hr.plainPaths names ih

/-! ## 4. Sessions -/

/-- A wire to the node `path` ends at a port of it to which no wire led before. -/
def LandsFree (s : Store) (path : String) : Prop :=
  ∀ compound source kind s', connect compound source (.node path) kind s = .ok () s' →
    ∃ w name, s'.wires = s.wires ++ [w] ∧ w.target = portPath path name ∧
      ∀ w' ∈ s.wires, w'.target ≠ w.target

/-- The ports of one record have one driver each. -/
structure DrivenOnce (s : Store) (path : String) (r : Record) : Prop where
  inputs : r.inputs.Nodup
  wires : ∀ name, (s.wiresTo (portPath path name)).length ≤ 1
  driven : ∀ name, s.isDriven (portPath path name) = true ↔
    ∃ w ∈ s.wires, w.target = portPath path name
  lands : s.LandsFree path

/-- **All ports have one driver each.** -/
structure SingleDriver (s : Store) : Prop where
  targets : (s.wires.map Wire.target).Nodup
  inputs : ∀ path r, s.record? path = some r → r.inputs.Nodup
  driven : ∀ port, s.isDriven port = true ↔ ∃ w ∈ s.wires, w.target = port
  lands : ∀ path, s.LandsFree path

theorem Reachable.landsFree (h : Reachable IsPlain s)
    (htidy : ∀ r, s.record? path = some r → r.Tidy) : s.LandsFree path := by
  intro compound source kind s' hok
  obtain ⟨_, _, start, stop, s₁, _, ht, rfl⟩ := connect_ok_iff.mp hok
  have hs : Sound (s.counted .connect) := (h.sound fun _ hn => hn.isSegment).counted _
  have hport :
      ∃ r name, s.record? path = some r ∧ stop = portPath path name ∧ s₁.wires = s.wires := by
    cases ht with
    | free within found first => exact ⟨_, _, found, rfl, rfl⟩
    | added within found full => exact ⟨_, _, found, rfl, rfl⟩
  obtain ⟨r, name, hr, rfl, hwires⟩ := hport
  have hidle : s.isDriven (portPath path name) = false :=
    ht.isDriven hs h.plainPaths rfl hr (htidy r hr)
  have hnone := (h.settledAt path r hr (htidy r hr) name).wiresTo_eq_nil hidle
  refine ⟨⟨start, portPath path name, kind⟩, name, ?_, rfl, wiresTo_eq_nil_iff.mp hnone⟩
  show s₁.wires ++ _ = _
  rw [hwires]

theorem Reachable.drivenOnce (h : Reachable IsPlain s) {r : Record} (hr : s.record? path = some r)
    (htidy : r.Tidy) : s.DrivenOnce path r where
  inputs := htidy.nodup
  wires name := (h.settledAt path r hr htidy name).length_le_one
  driven name := (h.settledAt path r hr htidy name).driven_iff
  lands := h.landsFree fun r' hr' => by
    obtain rfl : r = r' := Option.some.inj (hr.symm.trans hr')
    exact htidy

theorem Reachable.singleDriver (h : Reachable IsPlain s)
    (htidy : ∀ path r, s.record? path = some r → r.Tidy) : s.SingleDriver := by
  have hs : Sound s := h.sound fun _ hn => hn.isSegment
  -- every wire ends at a port of some record, and all records are tidy
  have hsettled : ∀ w ∈ s.wires, s.Settled w.target := by
    intro w hw
    obtain ⟨path, r, name, hr, he, _⟩ := hs.targets w hw
    rw [he]
    exact h.settledAt path r hr (htidy path r hr) name
  refine ⟨?_, fun path r hr => (htidy path r hr).nodup, fun port => ⟨fun hd => ?_, fun hw => ?_⟩,
    fun path => h.landsFree (htidy path)⟩
  · rw [List.nodup_iff_count_le_one]
    intro port
    have hcount : (s.wires.map Wire.target).count port = (s.wiresTo port).length := by
      rw [List.count, List.countP_map, List.countP_eq_length_filter]
      rfl
    rw [hcount]
    cases hw : s.wiresTo port with
    | nil => exact Nat.zero_le 1
    | cons w ws =>
      have hto : w ∈ s.wiresTo port := hw ▸ List.mem_cons_self
      obtain ⟨hm, rfl⟩ := mem_wiresTo.mp hto
      rw [← hw]
      exact (hsettled w hm).length_le_one
  · exact hs.driven port (by simpa [isDriven] using hd)
  · obtain ⟨w, hm, rfl⟩ := hw
    exact (hsettled w hm).driven_iff.mpr ⟨w, hm, rfl⟩

/-- **Every port of an operator has one driver**, after any session with plain names, and so has
    every port of a compound that the session spared: it gave the compound no input `input_1`,
    `input_2`, … and no output `input`, `input_1`, … If it spared all compounds, no two wires of the
    store end at one port. -/
theorem session_singleDriver (qs : List Request) (h : ∀ q ∈ qs, q.Names IsPlain) :
    (∀ path r, (session qs).record? path = some r →
        (r.isCompound = true → ∀ q ∈ qs, q.Spares path) → (session qs).DrivenOnce path r) ∧
      ((∀ path, ∀ q ∈ qs, q.Spares path) → (session qs).SingleDriver) := by
  have hreach : Reachable IsPlain (session qs) := reachable_session h
  refine ⟨fun path r hr hspares => hreach.drivenOnce hr (tidy_session hr hspares),
    fun hspares => ?_⟩
  exact hreach.singleDriver fun path r hr => tidy_session hr fun _ => hspares path

/-- A compound inside another has an input `input` by request and gets a second one by a wire; an
    operator gets its second input after the wire to its first one was cut. -/
theorem session_singleDriver_nested :
    let add : NodeType := ⟨"Core::Math,add"⟩
    let qs : List Request :=
      [.createCompound "/" "a", .createInputPort "/a" "x" false, .createCompound "/a" "b",
        .createInputPort "/a/b" "input" false, .createNode "/a" add, .createNode "/a" add,
        .connect "/a" (.compoundInput "/a.x") (.node "/a/b") .symbolToInput,
        .connect "/a" (.compoundInput "/a.x") (.node "/a/b") .symbolToInput,
        .connect "/a" (.node "/a/add_1") (.node "/a/add") .nodeToNode, .deleteNode "/a/add_1",
        .connect "/a" (.compoundInput "/a.x") (.node "/a/add") .symbolToInput,
        .connect "/a" (.compoundInput "/a.x") (.node "/a/add") .symbolToInput]
    (session qs).wires.map Wire.target =
        ["/a/b.input", "/a/b.input_1", "/a/add.input", "/a/add.input_1"] ∧
      (session qs).SingleDriver := by
  intro add qs
  have hx : ∀ k, "x" ≠ addedInput (k + 1) := by
    intro k he
    have hlist := congrArg String.toList he
    rw [addedInput_succ, toList_numberedName] at hlist
    cases hlist
  have hinput : ∀ k, "input" ≠ addedInput (k + 1) := by
    intro k he
    exact absurd (@addedInput_injective 0 (k + 1) he) (Nat.succ_ne_zero k).symm
  have hspares : ∀ path, ∀ q ∈ qs, q.Spares path := by
    simp [qs, Request.Spares, hx, hinput]
  exact ⟨by decide +kernel, (session_singleDriver qs (by decide)).2 hspares⟩

/-- **A compound's own ports can be driven twice**: the input `input_1` is the compound's first, and
    the one that is added for the second wire gets the same name. -/
theorem session_two_drivers :
    let qs : List Request :=
      [.createCompound "/" "a", .createInputPort "/a" "x" false, .createCompound "/a" "b",
        .createInputPort "/a/b" "input_1" false,
        .connect "/a" (.compoundInput "/a.x") (.node "/a/b") .symbolToInput,
        .connect "/a" (.compoundInput "/a.x") (.node "/a/b") .symbolToInput]
    (∀ q ∈ qs, q.Names IsPlain) ∧
      ((session qs).record? "/a/b").map Record.inputs = some ["input_1", "input_1"] ∧
      (session qs).wires.map Wire.target = ["/a/b.input_1", "/a/b.input_1"] ∧
      ¬ (session qs).SingleDriver := by
  intro qs
  have htwice : (session qs).wires.map Wire.target = ["/a/b.input_1", "/a/b.input_1"] := by
    decide +kernel
  refine ⟨by decide, by decide +kernel, htwice, fun h => ?_⟩
  have hnodup := h.targets
  rw [htwice] at hnodup
  exact absurd hnodup (by decide)

-- an output has the same effect as an input: here the compound has no inputs, and one called
-- `input` is added beside the output of that name, to which a wire leads from inside
example : (session
    [.createCompound "/" "a", .createInputPort "/a" "x" false, .createCompound "/a" "b",
      .createOutputPort "/a/b" "input", .createNode "/a/b" .constant,
      .connect "/a/b" (.node "/a/b/float") (.compoundOutput "/a/b.input") .nodeToOutput,
      .connect "/a" (.compoundInput "/a.x") (.node "/a/b") .symbolToInput]).wires.map Wire.target =
    ["/a/b.input", "/a/b.input"] := by
  decide +kernel

end Store

end FormulaGraph
