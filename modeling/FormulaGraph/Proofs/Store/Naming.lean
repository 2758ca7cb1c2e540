/-
  File:      FormulaGraph/Proofs/Store/Naming.lean
  Subject:   How a name is found in a container, and how long it stays taken.

  A name is looked for in a loop: as long as the candidate is taken, the counter goes up by one and
  makes the next candidate. The loop has no bound of its own. It ends because a turn that does not
  end it passes one of the finitely many taken names with a number above the counter.

  A container gives a name back when its node is deleted, and all of its names when it is deleted
  itself. So two nodes that are there at the same time have different names, whatever was asked for.
  The root is no node, but a node in it that is called by the empty name has the root's path. With
  that node the names of the root are given back, while the other nodes of the root stay.

  * `searchName`, `ahead` -- the loop, and the taken names that it can still run into;
  * `NextFree`, `nextFree_uniqueName` -- the bare name, or the one with the least free number;
  * `Naming`, `Request.naming` -- what a request may do to the names in use;
  * `mem_namesIn_of_stays` -- a name stays taken as long as its node stays;
  * `Sparse`, `sparse_session` -- how large the counters of a session become;
  * `names_fresh` -- names of nodes that are there at the same time differ;
  * `root_name_twice` -- a name of the root that is given twice.
-/
import Mathlib.Data.Finset.Card
import Mathlib.Data.Finset.Dedup
import Mathlib.Order.Bounds.Defs
import FormulaGraph.Proofs.Store.Session

namespace FormulaGraph

variable {base : String} {taken : List String} {counter : Nat}

/-! ## 1. The loop -/

open Classical in
/-- The taken names with a number above the counter. -/
noncomputable def ahead (base : String) (taken : List String) (counter : Nat) : Finset String :=
  taken.toFinset.filter fun name => ∃ k, counter < k ∧ name = numberedName base k

theorem mem_ahead {name : String} :
    name ∈ ahead base taken counter ↔
      name ∈ taken ∧ ∃ k, counter < k ∧ name = numberedName base k := by
  simp [ahead]

theorem ahead_succ_subset : ahead base taken (counter + 1) ⊆ ahead base taken counter := by
  intro name hm
  obtain ⟨ht, k, hk, he⟩ := mem_ahead.mp hm
  exact mem_ahead.mpr ⟨ht, k, by omega, he⟩

/-- A taken name that the counter has reached is ahead no longer, as no other number makes it. -/
theorem card_ahead_lt (h : numberedName base (counter + 1) ∈ taken) :
    (ahead base taken (counter + 1)).card < (ahead base taken counter).card := by
  refine Finset.card_lt_card ((Finset.ssubset_iff_of_subset ahead_succ_subset).mpr
    ⟨numberedName base (counter + 1), mem_ahead.mpr ⟨h, counter + 1, by omega, rfl⟩, fun hm => ?_⟩)
  obtain ⟨_, k, hk, he⟩ := mem_ahead.mp hm
  have := numberedName_injective base he
  omega

/-- The loop that looks for a free name. A turn leaves fewer names ahead, or a candidate that is
    free. -/
def searchName (base : String) (taken : List String) (candidate : String) (counter : Nat) :
    String × Nat :=
  if candidate ∈ taken then
    searchName base taken (numberedName base (counter + 1)) (counter + 1)
  else (candidate, counter)
termination_by (ahead base taken counter).card + if candidate ∈ taken then 1 else 0
decreasing_by
  rename_i hc
  rw [if_pos hc]
  by_cases hn : numberedName base (counter + 1) ∈ taken
  · rw [if_pos hn]
    have := card_ahead_lt hn
    omega
  · rw [if_neg hn]
    have hle : (ahead base taken (counter + 1)).card ≤ (ahead base taken counter).card :=
      Finset.card_le_card ahead_succ_subset
    omega

theorem searchName_of_mem {candidate : String} (h : candidate ∈ taken) :
    searchName base taken candidate counter =
      searchName base taken (numberedName base (counter + 1)) (counter + 1) := by
  rw [searchName, if_pos h]

theorem searchName_of_notMem {candidate : String} (h : candidate ∉ taken) :
    searchName base taken candidate counter = (candidate, counter) := by
  rw [searchName, if_neg h]

/-- Among numbered names the loop goes where a bounded search with enough tries goes. -/
theorem searchName_numbered {tries k : Nat}
    (h : numberedName base (freeNumber base taken tries k) ∉ taken) :
    searchName base taken (numberedName base k) k =
      (numberedName base (freeNumber base taken tries k), freeNumber base taken tries k) := by
  fun_induction freeNumber base taken tries k with
  | case1 k => exact searchName_of_notMem h
  | case2 tries k hk ih => rw [searchName_of_mem hk, ih h]
  | case3 tries k hk => exact searchName_of_notMem hk

/-- **As many tries as there are taken names are enough for the loop.** -/
theorem uniqueName_eq_searchName (base : String) (last : Nat) (taken : List String) :
    uniqueName base last taken = searchName base taken base last := by
  unfold uniqueName
  by_cases h : base ∈ taken
  · rw [if_pos h, searchName_of_mem h, searchName_numbered (notMem_freeNumber (last + 1))]
  · rw [if_neg h, searchName_of_notMem h]

/-- What is to be found: the bare name with the counter as it was, or, if that is taken, the name
    with the least free number above the counter, and that number. -/
structure NextFree (base : String) (last : Nat) (taken : List String) (found : String × Nat) :
    Prop where
  free : found.1 ∉ taken
  bare : base ∉ taken → found = (base, last)
  numbered : base ∈ taken → found.1 = numberedName base found.2 ∧
    IsLeast {k | last < k ∧ numberedName base k ∉ taken} found.2

theorem nextFree_uniqueName (base : String) (last : Nat) (taken : List String) :
    NextFree base last taken (uniqueName base last taken) where
  free := uniqueName_notMem base last taken
  bare h := uniqueName_of_notMem h
  numbered h := by
    rw [uniqueName, if_pos h]
    refine ⟨rfl, ⟨le_freeNumber _ _, notMem_freeNumber _⟩, fun k hk => ?_⟩
    obtain ⟨hlast, hfree⟩ := hk
    exact Nat.le_of_not_lt fun hlt => hfree (mem_of_lt_freeNumber hlast hlt)

/-- The counter goes up by no more than there are taken names. -/
theorem uniqueName_snd_le (base : String) (last : Nat) (taken : List String) :
    (uniqueName base last taken).2 ≤ taken.length + last := by
  unfold uniqueName
  split
  · rename_i h
    exact freeNumber_le_length h
  · exact Nat.le_add_left last _

/-! ## 2. What a request does to the names -/

namespace Assoc

variable {κ α : Type} [DecidableEq κ] {key : κ} {e : κ × α} {entries : List (κ × α)}

theorem mem_put {value : α} (h : e ∈ put key value entries) : e = (key, value) ∨ e ∈ entries := by
  induction entries with
  | nil => exact .inl (List.mem_singleton.mp h)
  | cons first rest ih =>
    obtain ⟨k, v⟩ := first
    by_cases hk : k = key
    · rw [put, if_pos hk, hk] at h
      exact (List.mem_cons.mp h).imp id (List.mem_cons_of_mem _)
    · rw [put, if_neg hk] at h
      rcases List.mem_cons.mp h with rfl | h
      · exact .inr List.mem_cons_self
      · exact (ih h).imp id (List.mem_cons_of_mem _)

theorem mem_modify {f : α → α} (h : e ∈ modify key f entries) :
    e ∈ entries ∨ ∃ value, (key, value) ∈ entries ∧ e = (key, f value) := by
  induction entries with
  | nil => exact .inl h
  | cons first rest ih =>
    obtain ⟨k, v⟩ := first
    by_cases hk : k = key
    · subst hk
      rw [modify, if_pos rfl] at h
      rcases List.mem_cons.mp h with rfl | h
      · exact .inr ⟨v, List.mem_cons_self, rfl⟩
      · exact .inl (List.mem_cons_of_mem _ h)
    · rw [modify, if_neg hk] at h
      rcases List.mem_cons.mp h with rfl | h
      · exact .inl List.mem_cons_self
      · refine (ih h).imp (List.mem_cons_of_mem _) ?_
        rintro ⟨value, hm, he⟩
        exact ⟨value, List.mem_cons_of_mem _ hm, he⟩

end Assoc

namespace Store

variable {s s' : Store} {q : Request} {container name : String}

/-- Every record stands where its container and its name say. Unlike `Sound` this needs nothing of
    the names. -/
def Placed (s : Store) : Prop := ∀ e ∈ s.records, e.1 = childPath e.2.container e.2.name

theorem Placed.updateRecord (h : s.Placed) (path : String) {f : Record → Record}
    (hf : ∀ r, (f r).container = r.container ∧ (f r).name = r.name) :
    (s.updateRecord path f).Placed := by
  intro e he
  rcases Assoc.mem_modify he with hm | ⟨r, hm, rfl⟩
  · exact h e hm
  · rw [(hf r).1, (hf r).2]
    exact h (path, r) hm

/-- No record stands at the empty path. -/
theorem Placed.path_ne_empty (h : s.Placed) {path : String} (hp : (s.record? path).isSome) :
    path ≠ "" := by
  obtain ⟨r, hr⟩ := Option.isSome_iff_exists.mp hp
  have hpath : path = childPath r.container r.name := h (path, r) (Assoc.mem_of_lookup hr)
  rw [hpath]
  exact childPath_ne_empty _ _

/-- What a request may do to the names in use: nothing, one more record under a free name, or a
    deletion that succeeds. -/
inductive Naming (s : Store) : Request → Store → Prop where
  | kept {q : Request} {s' : Store} (siblings : s'.siblings = s.siblings)
      (placed : s.Placed → s'.Placed) : Naming s q s'
  | made {q : Request} (call : StoreCall) (r : Record) :
      Naming s q ((s.counted call).insert r.container r).2
  | deleted {node : String} (found : (s.record? node).isSome)
      (call : deleteNode node s = .ok () ((s.counted .deleteNode).without node)) :
      Naming s (.deleteNode node) ((s.counted .deleteNode).without node)

theorem Outcome.naming (ho : Outcome s q s') (hq : ∀ node, q ≠ .deleteNode node) :
    Naming s q s' := by
  cases ho with
  | unchanged records order siblings wires driven =>
    exact .kept siblings fun h e he => h e (records ▸ he)
  | createCompound container => exact .made _ (compoundRecord _ _)
  | createInputPort found isCompound =>
    exact .kept rfl fun h => Placed.updateRecord h _ fun _ => ⟨rfl, rfl⟩
  | createOutputPort found isCompound =>
    exact .kept rfl fun h => Placed.updateRecord h _ fun _ => ⟨rfl, rfl⟩
  | createNode container => exact .made _ (nodeRecord _ _)
  | setLiteralValue found constant =>
    exact .kept rfl fun h => Placed.updateRecord h _ fun _ => ⟨rfl, rfl⟩
  | connect leaves arrives =>
    cases arrives with
    | free within found first => exact .kept rfl id
    | added within found full =>
      exact .kept rfl fun h => Placed.updateRecord h _ fun _ => ⟨rfl, rfl⟩
    | output found isCompound listed idle => exact .kept rfl id
  | deleteNode found => exact absurd rfl (hq _)

/-- **A request keeps the names, adds a record or deletes a node.** -/
theorem Request.naming (q : Request) (s : Store) : Naming s q (q.run s) := by
  cases q with
  | deleteNode node =>
    refine stateOf_perform (.kept rfl id) fun u s' hok => ?_
    obtain ⟨_, hfound, rfl⟩ := deleteNode_ok_iff.mp hok
    exact .deleted hfound hok
  | _ => exact (Request.outcome _ s).naming fun _ h => by cases h

theorem Naming.placed (hn : Naming s q s') (h : s.Placed) : s'.Placed := by
  cases hn with
  | kept siblings placed => exact placed h
  | made call r =>
    intro e he
    rcases Assoc.mem_put he with rfl | hm
    · rfl
    · exact h e hm
  | deleted found call => exact fun e he => h e (List.mem_filter.mp he).1

theorem placed_session (qs : List Request) : (session qs).Placed := by
  induction qs using List.reverseRecOn with
  | nil => exact fun e he => absurd he List.not_mem_nil
  | append_singleton qs q ih =>
    rw [session_concat]
    exact (q.naming _).placed ih

/-! ## 3. Names that stay taken -/

/-- A request puts a node into a container and answers with its path there. -/
inductive Makes (s : Store) (container name : String) : Request → Prop where
  | compound {wanted : String} {s' : Store}
      (call : createCompound container wanted s = .ok (childPath container name) s') :
      Makes s container name (.createCompound container wanted)
  | node {type : NodeType} {s' : Store}
      (call : createNode container type s = .ok (childPath container name) s') :
      Makes s container name (.createNode container type)

/-- A path is there now and after each of the requests. -/
def Stays (path : String) : Store → List Request → Prop
  | s, [] => (s.record? path).isSome
  | s, q :: qs => (s.record? path).isSome ∧ Stays path (q.run s) qs

instance decidableStays (path : String) :
    (s : Store) → (qs : List Request) → Decidable (Stays path s qs)
  | s, [] => inferInstanceAs (Decidable ((s.record? path).isSome = true))
  | s, q :: qs => @instDecidableAnd _ _ inferInstance (decidableStays path (q.run s) qs)

/-- One of the requests deletes a node. -/
def Deletes (node : String) : Store → List Request → Prop
  | _, [] => False
  | s, q :: qs =>
    (q = .deleteNode node ∧ ∃ s', deleteNode node s = .ok () s') ∨ Deletes node (q.run s) qs

/-- A compound gets the name that its container has free for it. -/
theorem makes_compound_iff {wanted : String} :
    s.Makes container name (.createCompound container wanted) ↔
      s.refuses .createCompound = false ∧ s.hasContainer container = true ∧
        s.nameFor container wanted = name := by
  constructor
  · intro h
    cases h with
    | compound call =>
      obtain ⟨hr, hc, he⟩ := createCompound_ok_iff.mp call
      exact ⟨hr, hc, childPath_injective container (congrArg Prod.fst he)⟩
  · rintro ⟨hr, hc, rfl⟩
    exact .compound (createCompound_ok_iff.mpr ⟨hr, hc, rfl⟩)

theorem Makes.insert (h : s.Makes container name q) :
    ∃ call r, name = s.nameFor container r.name ∧
      q.run s = ((s.counted call).insert container r).2 := by
  cases h with
  | @compound wanted s' call =>
    obtain ⟨_, _, he⟩ := createCompound_ok_iff.mp call
    refine ⟨.createCompound, _, (childPath_injective container (congrArg Prod.fst he)).symm, ?_⟩
    rw [Request.run, call, stateOf, he]
  | @node type s' call =>
    obtain ⟨_, _, he⟩ := createNode_ok_iff.mp call
    refine ⟨.createNode, _, (childPath_injective container (congrArg Prod.fst he)).symm, ?_⟩
    rw [Request.run, call, stateOf, he]

/-- A name that is handed out was not taken. -/
theorem Makes.notMem (h : s.Makes container name q) : name ∉ s.namesIn container := by
  obtain ⟨call, r, rfl, _⟩ := h.insert
  exact nameFor_notMem s container r.name

/-- A name that is handed out is taken. -/
theorem Makes.mem_run (h : s.Makes container name q) : name ∈ (q.run s).namesIn container := by
  obtain ⟨call, r, rfl, hrun⟩ := h.insert
  rw [hrun, namesIn_insert, if_pos rfl]
  exact List.mem_cons_self

theorem Stays.record? {path : String} {qs : List Request} (h : Stays path s qs) :
    (s.record? path).isSome := by
  cases qs with
  | nil => exact h
  | cons q qs => exact h.1

/-- What covers a container that is not the root covers what is put into it. -/
theorem covers_childPath_of_covers {node : String} (hr : container ≠ rootPath)
    (h : covers node container = true) (name : String) :
    covers node (childPath container name) = true := by
  have hpre : container.toList ++ ['/'] <+: (childPath container name).toList := by
    rw [toList_childPath, stem, if_neg hr]
    exact ⟨name.toList, by simp⟩
  rw [covers, Bool.or_eq_true, beq_iff_eq] at h ⊢
  right
  rcases h with rfl | h
  · exact isWithin_iff.mpr hpre
  · exact isWithin_iff.mpr ((isWithin_iff.mp h).trans ((List.prefix_append _ _).trans hpre))

/-- **A request leaves a name taken if it leaves the node**, but for the deletion of a node at the
    root's path, which the root's names do not outlive. -/
theorem Naming.mem_namesIn (hn : Naming s q s') (hp : s.Placed) (hm : name ∈ s.namesIn container)
    (hstays : (s'.record? (childPath container name)).isSome)
    (hroot : container = rootPath →
      ¬ (q = .deleteNode rootPath ∧ ∃ s', deleteNode rootPath s = .ok () s')) :
    name ∈ s'.namesIn container := by
  cases hn with
  | kept siblings placed =>
    rw [namesIn, siblings]
    exact hm
  | made call r =>
    rw [namesIn_insert]
    split
    · rename_i he
      exact List.mem_cons_of_mem _ (he ▸ hm)
    · exact hm
  | @deleted node found call =>
    obtain ⟨r, hr⟩ := Option.isSome_iff_exists.mp hstays
    have huncovered := (record?_without_eq_some.mp hr).1
    refine mem_namesIn_without.mpr ⟨?_, hm, fun e he hcov heq => ?_⟩
    · rw [Bool.eq_false_iff]
      intro hcov
      by_cases hc : container = rootPath
      · -- only the root's own path and the empty one cover the root, and no node has the empty one
        subst hc
        rw [covers, not_isWithin_root (hp.path_ne_empty found), Bool.or_false, beq_iff_eq] at hcov
        subst hcov
        exact hroot rfl ⟨rfl, _, call⟩
      · rw [covers_childPath_of_covers hc hcov] at huncovered
        cases huncovered
    · rw [hp e he, heq.1, heq.2, huncovered] at hcov
      cases hcov

/-- **A name stays taken as long as its node stays.** -/
theorem mem_namesIn_of_stays {qs : List Request} (hp : s.Placed)
    (hm : name ∈ s.namesIn container) (hstays : Stays (childPath container name) s qs)
    (hroot : container = rootPath → ¬ Deletes rootPath s qs) :
    name ∈ (qs.foldl (fun s q => q.run s) s).namesIn container := by
  induction qs generalizing s with
  | nil => exact hm
  | cons q qs ih =>
    obtain ⟨_, hrest⟩ := hstays
    refine ih ((q.naming s).placed hp) ?_ hrest fun hc hd => hroot hc (.inr hd)
    exact (q.naming s).mem_namesIn hp hm hrest.record? fun hc hd => hroot hc (.inl hd)

/-! ## 4. How large the counters become -/

/-- The last number that a container has handed out for a wanted name. -/
def lastNumber (s : Store) (container wanted : String) : Nat :=
  (((s.siblings.lookup container).getD {}).numbers.lookup wanted).getD 0

theorem lastNumber_insert (s : Store) (container : String) (r : Record) (other wanted : String) :
    (s.insert container r).2.lastNumber other wanted =
      if other = container ∧ wanted = r.name then
        (uniqueName r.name (s.lastNumber container r.name) (s.namesIn container)).2
      else s.lastNumber other wanted := by
  unfold lastNumber
  show ((((Assoc.put container _ s.siblings).lookup other).getD {}).numbers.lookup wanted).getD 0 =
    _
  rw [Assoc.lookup_put]
  by_cases ho : other = container
  · subst ho
    rw [if_pos rfl, Option.getD_some, Assoc.lookup_put]
    by_cases hw : wanted = r.name
    · rw [if_pos hw, if_pos ⟨rfl, hw⟩]
      rfl
    · rw [if_neg hw, if_neg fun h => hw h.2]
  · rw [if_neg ho, if_neg fun h => ho h.1]

/-- A container that has given names back keeps its numbers. -/
structure Released (c c' : Siblings) : Prop where
  names : c'.names.Sublist c.names
  numbers : c'.numbers = c.numbers

theorem Released.refl (c : Siblings) : Released c c := ⟨List.Sublist.refl _, rfl⟩

theorem Released.trans {c₁ c₂ c₃ : Siblings} (h : Released c₁ c₂) (h' : Released c₂ c₃) :
    Released c₁ c₃ :=
  ⟨h'.names.trans h.names, h'.numbers.trans h.numbers⟩

theorem released_releaseName (siblings : List (String × Siblings)) (r : Record)
    (container : String) :
    Released ((siblings.lookup container).getD {})
      (((releaseName siblings r).lookup container).getD {}) := by
  rw [releaseName, Assoc.lookup_modify]
  split
  · cases siblings.lookup container with
    | none => exact .refl _
    | some c => exact ⟨List.filter_sublist, rfl⟩
  · exact .refl _

theorem released_foldl (removed : List (String × Record)) (container : String) :
    ∀ siblings : List (String × Siblings), Released ((siblings.lookup container).getD {})
      (((removed.foldl (fun c e => releaseName c e.2) siblings).lookup container).getD {}) := by
  induction removed with
  | nil => exact fun _ => .refl _
  | cons e removed ih =>
    exact fun siblings => (released_releaseName siblings e.2 container).trans (ih _)

/-- A deletion takes a container's names and numbers away, or some of its names. -/
theorem siblings_without (s : Store) (node container : String) :
    ((s.without node).siblings.lookup container).getD {} = {} ∨
      Released ((s.siblings.lookup container).getD {})
        (((s.without node).siblings.lookup container).getD {}) := by
  have hlookup : (s.without node).siblings.lookup container =
      if (!covers node container) = true then
        ((s.records.filter fun e => covers node e.1).foldl (fun c e => releaseName c e.2)
          s.siblings).lookup container
      else none := Assoc.lookup_filter (fun p => !covers node p) container _
  rw [hlookup]
  split
  · exact .inr (released_foldl _ container s.siblings)
  · exact .inl rfl

/-- After `n` requests a container has no more than `n` names, and no counter is above `n * n`. -/
def Sparse (n : Nat) (s : Store) : Prop := ∀ container,
  (s.namesIn container).length ≤ n ∧ ∀ wanted, s.lastNumber container wanted ≤ n * n

theorem Naming.sparse {n : Nat} (hn : Naming s q s') (h : Sparse n s) : Sparse (n + 1) s' := by
  have hsquare : n * n + n ≤ (n + 1) * (n + 1) := by
    rw [Nat.add_mul, Nat.mul_add]
    omega
  intro container
  obtain ⟨hnames, hnumbers⟩ := h container
  cases hn with
  | kept siblings placed =>
    rw [namesIn, siblings]
    refine ⟨Nat.le_succ_of_le hnames, fun wanted => ?_⟩
    rw [lastNumber, siblings]
    exact (hnumbers wanted).trans (by omega)
  | made call r =>
    refine ⟨?_, fun wanted => ?_⟩
    · rw [namesIn_insert]
      split
      · exact Nat.succ_le_succ (h r.container).1
      · exact Nat.le_succ_of_le hnames
    · rw [lastNumber_insert]
      split
      · have hcounter := uniqueName_snd_le r.name ((s.counted call).lastNumber r.container r.name)
          ((s.counted call).namesIn r.container)
        have h₁ : ((s.counted call).namesIn r.container).length ≤ n := (h r.container).1
        have h₂ : (s.counted call).lastNumber r.container r.name ≤ n * n := (h r.container).2 r.name
        omega
      · exact (hnumbers wanted).trans (by omega)
  | @deleted node found call =>
    rcases siblings_without (s.counted .deleteNode) node container with hgone | hrest
    · rw [namesIn, hgone]
      refine ⟨Nat.zero_le _, fun wanted => ?_⟩
      rw [lastNumber, hgone]
      exact Nat.zero_le _
    · refine ⟨hrest.names.length_le.trans (Nat.le_succ_of_le hnames), fun wanted => ?_⟩
      rw [lastNumber, hrest.numbers]
      exact (hnumbers wanted).trans (by omega)

theorem sparse_session (qs : List Request) : Sparse qs.length (session qs) := by
  induction qs using List.reverseRecOn with
  | nil => exact fun container => ⟨Nat.le_refl 0, fun wanted => Nat.le_refl 0⟩
  | append_singleton qs q ih =>
    rw [session_concat, List.length_append]
    exact (q.naming _).sparse ih

/-! ## 5. Names that are handed out -/

/-- **A name that is handed out is fresh.** For every wanted name, counter and list of taken names
    the loop ends, with the bare name or with the least free number above the counter. So in every
    session a name that a container hands out while another node of it is there is not the name of
    that node, however the two were asked for and whatever else was made and deleted in between; in
    the root this is so unless a node at the root's own path was deleted in between. No counter of a
    session outgrows the square of its length. -/
theorem names_fresh (base : String) (last : Nat) (taken : List String) (container : String) :
    uniqueName base last taken = searchName base taken base last ∧
      NextFree base last taken (uniqueName base last taken) ∧
      (∀ (before between : List Request) (q q' : Request) (name name' : String),
        (session before).Makes container name q →
        Stays (childPath container name) (session (before ++ [q])) between →
        (container = rootPath → ¬ Deletes rootPath (session (before ++ [q])) between) →
        (session (before ++ q :: between)).Makes container name' q' → name' ≠ name) ∧
      ∀ (qs : List Request) (wanted : String),
        (session qs).lastNumber container wanted ≤ qs.length * qs.length := by
  refine ⟨uniqueName_eq_searchName base last taken, nextFree_uniqueName base last taken, ?_,
    fun qs wanted => (sparse_session qs container).2 wanted⟩
  intro before between q q' name name' hq hstays hroot hq' he
  have htaken : name ∈ (session (before ++ [q])).namesIn container := by
    rw [session_concat]
    exact hq.mem_run
  have hstill := mem_namesIn_of_stays (placed_session _) htaken hstays hroot
  have hsession : session (before ++ q :: between) =
      between.foldl (fun s q => q.run s) (session (before ++ [q])) := by
    simp [session]
  exact hq'.notMem (hsession ▸ he ▸ hstill)

/-- A name with a number is wanted and given as it is. It is in the way of the first number for the
    bare name, and the second one is not given again after its node is gone. -/
theorem names_fresh_numbered :
    let first : Request := .createCompound rootPath "a_1"
    let second : Request := .createCompound rootPath "a"
    let between : List Request := [second, second, .deleteNode "/a_2"]
    (session []).Makes rootPath "a_1" first ∧
      Stays (childPath rootPath "a_1") (session [first]) between ∧
      ¬ Deletes rootPath (session [first]) between ∧
      (session (first :: between)).Makes rootPath "a_3" second ∧ "a_3" ≠ "a_1" ∧
      NextFree "a" 1 ["a_2", "a", "a_1"] ("a_3", 3) := by
  intro first second between
  have hfirst : (session []).Makes rootPath "a_1" first :=
    makes_compound_iff.mpr (by decide +kernel)
  have hstays : Stays (childPath rootPath "a_1") (session [first]) between := by decide +kernel
  have hdeletes : ¬ Deletes rootPath (session [first]) between := by
    simp [Deletes, between, second, rootPath]
  have hsecond : (session (first :: between)).Makes rootPath "a_3" second :=
    makes_compound_iff.mpr (by decide +kernel)
  obtain ⟨-, hnext, hdiffer, -⟩ := names_fresh "a" 1 ["a_2", "a", "a_1"] rootPath
  have hfound : uniqueName "a" 1 ["a_2", "a", "a_1"] = ("a_3", 3) := by decide +kernel
  exact ⟨hfirst, hstays, hdeletes, hsecond,
    hdiffer [] between first second "a_1" "a_3" hfirst hstays (fun _ => hdeletes) hsecond,
    hfound ▸ hnext⟩

/-- **A name of the root can be given twice**: a compound with the empty name has the root's path,
    and the root's names go with it. The next compound gets the name and the path of one that is
    there. -/
theorem root_name_twice :
    let unnamed : Request := .createCompound rootPath ""
    let named : Request := .createCompound rootPath "a"
    (session [unnamed]).Makes rootPath "a" named ∧
      Stays (childPath rootPath "a") (session [unnamed, named]) [.deleteNode rootPath] ∧
      (session [unnamed, named, .deleteNode rootPath]).Makes rootPath "a" named ∧
      (session [unnamed, named, .deleteNode rootPath, named]).order = ["/a", "/a"] := by
  intro unnamed named
  exact ⟨makes_compound_iff.mpr (by decide +kernel), by decide +kernel,
    makes_compound_iff.mpr (by decide +kernel), by decide +kernel⟩

end Store

end FormulaGraph
