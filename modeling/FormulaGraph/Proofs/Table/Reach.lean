/-
  File:      FormulaGraph/Proofs/Table/Reach.lean
  Subject:   What is below a node, and the walk that finds it.

  * `Built`, `Built.ordered` -- tables made by pushing and interning keep arguments below their
    operations;
  * `Below` -- a node is below a root if a chain of arguments leads to it;
  * `mem_preorder_iff`, `nodup_preorder` -- the walk meets exactly the nodes below its root, each
    once;
  * `mem_creationOrder_iff`, `argsUsed_uses` -- what the compiler reads off the walk.
-/
import FormulaGraph.Proofs.Distinct
import FormulaGraph.Plan.Compile

namespace FormulaGraph.Table

variable {t : Table} {root id : Nat}

/-! ## 1. Tables that were built -/

/-- The tables that pushing and interning nodes leads to. -/
inductive Built : Table → Prop where
  | empty : Built empty
  | push {t : Table} {node : Node} {result : Nat × Table} (h : Built t)
      (pushed : t.push? node = some result) : Built result.2
  | intern {t : Table} {node : Node} {result : Nat × Table} (h : Built t)
      (interned : t.intern? node = some result) : Built result.2

theorem node?_eq_some_lt {node : Node} (h : t.node? id = some node) : id < t.size := by
  obtain ⟨hlt, _⟩ := Array.getElem?_eq_some_iff.mp h
  exact hlt

theorem isSome_node?_iff : (t.node? id).isSome ↔ id < t.size := by
  simp [node?, size]

theorem exists_node (hlt : id < t.size) : ∃ node, t.node? id = some node :=
  Option.isSome_iff_exists.mp (isSome_node?_iff.mpr hlt)

theorem Ordered.push (h : t.Ordered) {node : Node} (ha : t.admits node = true) :
    (t.push node).2.Ordered := by
  intro id other hn arg harg
  by_cases hid : id < t.size
  · rw [node?_push_of_lt hid] at hn
    exact h id other hn arg harg
  · have hlt := node?_eq_some_lt hn
    rw [size_push] at hlt
    obtain rfl : id = t.size := by omega
    rw [node?_push_self] at hn
    cases hn
    simpa using List.all_eq_true.mp ha arg harg

/-- Recording what was interned changes no node. -/
theorem Ordered.of_nodes {t' : Table} (h : t.Ordered) (he : t'.nodes = t.nodes) : t'.Ordered := by
  intro id node hn
  refine h id node ?_
  rw [node?, ← he]
  exact hn

theorem Built.ordered (h : t.Built) : t.Ordered := by
  induction h with
  | empty =>
    intro id node hn
    simp [node?, Table.empty] at hn
  | @push t node result _ pushed ih =>
    unfold push? at pushed
    split at pushed
    · rename_i ha
      cases pushed
      exact ih.push ha
    · cases pushed
  | @intern t node result _ interned ih =>
    unfold intern? at interned
    split at interned
    · rename_i ha
      cases interned
      unfold Table.intern
      split
      · exact ih
      · rename_i hl
        rw [hl] at ha
        exact (ih.push (by simpa using ha)).of_nodes rfl
    · cases interned

theorem Ordered.args_lt (h : t.Ordered) {arg : Nat} (ha : arg ∈ t.args id) : arg < id := by
  unfold args at ha
  cases hn : t.node? id with
  | none =>
    rw [hn] at ha
    cases ha
  | some node =>
    rw [hn] at ha
    exact h id node hn arg ha

/-! ## 2. Below a root -/

/-- A chain of arguments leads from the root to a node. -/
inductive Below (t : Table) (root : Nat) : Nat → Prop where
  | root : Below t root root
  | arg {id arg : Nat} (h : Below t root id) (ha : arg ∈ t.args id) : Below t root arg

theorem Below.trans {a b c : Nat} (h : t.Below a b) (h' : t.Below b c) : t.Below a c := by
  induction h' with
  | root => exact h
  | arg _ ha ih => exact ih.arg ha

theorem Below.eq_or_arg (h : t.Below root id) :
    id = root ∨ ∃ arg ∈ t.args root, t.Below arg id := by
  induction h with
  | root => exact .inl rfl
  | @arg id arg _ ha ih =>
    rcases ih with rfl | ⟨first, hf, hb⟩
    · exact .inr ⟨arg, ha, .root⟩
    · exact .inr ⟨first, hf, hb.arg ha⟩

theorem Below.le (h : t.Below root id) (ht : t.Ordered) : id ≤ root := by
  induction h with
  | root => exact Nat.le_refl _
  | arg _ ha ih => exact Nat.le_trans (Nat.le_of_lt (ht.args_lt ha)) ih

theorem Below.lt_size (h : t.Below root id) (ht : t.Ordered) (hr : root < t.size) : id < t.size :=
  Nat.lt_of_le_of_lt (h.le ht) hr

/-! ## 3. The walk -/

/-- The set of the ids met agrees with their list, and no id is met twice. -/
structure Visited.Consistent (v : Visited) : Prop where
  seen : ∀ id, v.seen.contains id = true ↔ id ∈ v.order
  nodup : v.order.Nodup

/-- What a walk over some starting points has added: only ids below them, and with each id its
    arguments. -/
structure Walked (t : Table) (starts : List Nat) (v v' : Visited) : Prop where
  consistent : v'.Consistent
  kept : ∀ id ∈ v.order, id ∈ v'.order
  started : ∀ id ∈ starts, id ∈ v'.order
  below : ∀ id ∈ v'.order, id ∈ v.order ∨ ∃ start ∈ starts, t.Below start id
  closed : ∀ id ∈ v'.order, id ∈ v.order ∨ ∀ arg ∈ t.args id, arg ∈ v'.order

theorem Walked.nil {v : Visited} (h : v.Consistent) : t.Walked [] v v where
  consistent := h
  kept _ hm := hm
  started _ hm := absurd hm List.not_mem_nil
  below _ hm := .inl hm
  closed _ hm := .inl hm

theorem Walked.append {starts more : List Nat} {v₁ v₂ v₃ : Visited} (h : t.Walked starts v₁ v₂)
    (h' : t.Walked more v₂ v₃) : t.Walked (starts ++ more) v₁ v₃ where
  consistent := h'.consistent
  kept id hm := h'.kept id (h.kept id hm)
  started id hm := by
    rcases List.mem_append.mp hm with hm | hm
    · exact h'.kept id (h.started id hm)
    · exact h'.started id hm
  below id hm := by
    rcases h'.below id hm with hm | ⟨start, hs, hb⟩
    · rcases h.below id hm with hm | ⟨start, hs, hb⟩
      · exact .inl hm
      · exact .inr ⟨start, List.mem_append_left _ hs, hb⟩
    · exact .inr ⟨start, List.mem_append_right _ hs, hb⟩
  closed id hm := by
    rcases h'.closed id hm with hm | hc
    · rcases h.closed id hm with hm | hc
      · exact .inl hm
      · exact .inr fun arg ha => h'.kept arg (hc arg ha)
    · exact .inr hc

theorem Visited.Consistent.insert {v : Visited} (h : v.Consistent)
    (hn : v.seen.contains id = false) :
    Visited.Consistent ⟨v.seen.insert id, id :: v.order⟩ where
  seen other := by
    rw [IdSet.contains_insert, Bool.or_eq_true, h.seen, decide_eq_true_iff, List.mem_cons, or_comm,
      eq_comm]
  nodup := by
    refine List.nodup_cons.mpr ⟨fun hm => ?_, h.nodup⟩
    rw [(h.seen id).mpr hm] at hn
    cases hn

/-- A node whose arguments have all been walked over has been walked over. -/
theorem Walked.node {v v' : Visited} (hn : v.seen.contains id = false)
    (h : t.Walked (t.args id) ⟨v.seen.insert id, id :: v.order⟩ v') : t.Walked [id] v v' where
  consistent := h.consistent
  kept other hm := h.kept other (List.mem_cons_of_mem _ hm)
  started other hm := by
    rw [List.mem_singleton.mp hm]
    exact h.kept id List.mem_cons_self
  below other hm := by
    rcases h.below other hm with hm | ⟨start, hs, hb⟩
    · rcases List.mem_cons.mp hm with rfl | hm
      · exact .inr ⟨other, List.mem_cons_self, .root⟩
      · exact .inl hm
    · exact .inr ⟨id, List.mem_cons_self, (Below.root.arg hs).trans hb⟩
  closed other hm := by
    rcases h.closed other hm with hm | hc
    · rcases List.mem_cons.mp hm with rfl | hm
      · exact .inr h.started
      · exact .inl hm
    · exact .inr hc

/-- **A visit walks over what is below its start**, given levels enough. -/
theorem visit_walked (ht : t.Ordered) : ∀ (levels : Nat) {v : Visited} {id : Nat}, v.Consistent →
    id < levels → t.Walked [id] v (t.visit levels v id)
  | 0, _, _, _, hl => absurd hl (Nat.not_lt_zero _)
  | levels + 1, v, id, hv, hl => by
      have hfold : ∀ (args : List Nat) (v : Visited), (∀ arg ∈ args, arg < levels) →
          v.Consistent → t.Walked args v (args.foldl (fun v arg => t.visit levels v arg) v) := by
        intro args
        induction args with
        | nil => exact fun v _ hv => .nil hv
        | cons arg args ih =>
          intro v hlt hv
          have hw := visit_walked ht levels hv (hlt arg List.mem_cons_self)
          exact hw.append (ih _ (fun a ha => hlt a (List.mem_cons_of_mem _ ha)) hw.consistent)
      unfold visit
      split
      · rename_i hs
        have hm := (hv.seen id).mp hs
        exact ⟨hv, fun _ h => h, fun other ho => by rwa [List.mem_singleton.mp ho],
          fun _ h => .inl h, fun _ h => .inl h⟩
      · rename_i hs
        have hs : v.seen.contains id = false := by simpa using hs
        refine Walked.node hs (hfold _ _ (fun arg ha => ?_) (hv.insert hs))
        have := ht.args_lt ha
        omega

theorem preorder_walked (ht : t.Ordered) (root : Nat) :
    t.Walked [root] {} (t.visit (root + 1) {} root) :=
  visit_walked ht (root + 1) ⟨fun id => by simp [IdSet.contains], List.nodup_nil⟩
    (Nat.lt_succ_self _)

/-- **The walk meets exactly what is below its root.** -/
theorem mem_preorder_iff (ht : t.Ordered) : id ∈ t.preorder root ↔ t.Below root id := by
  have hw := preorder_walked ht root
  rw [preorder, List.mem_reverse]
  constructor
  · intro hm
    rcases hw.below id hm with hm | ⟨start, hs, hb⟩
    · cases hm
    · rwa [List.mem_singleton.mp hs] at hb
  · intro hb
    induction hb with
    | root => exact hw.started root List.mem_cons_self
    | @arg id arg _ ha ih =>
      rcases hw.closed id ih with hm | hc
      · cases hm
      · exact hc arg ha

theorem nodup_preorder (ht : t.Ordered) : (t.preorder root).Nodup :=
  List.nodup_reverse.mpr (preorder_walked ht root).consistent.nodup

/-! ## 4. What the compiler reads off the walk -/

theorem mem_creationOrder_iff (ht : t.Ordered) : id ∈ t.creationOrder root ↔ t.Below root id := by
  rw [creationOrder, List.mem_eraseDups, List.mem_flatMap]
  constructor
  · rintro ⟨other, hm, hid⟩
    have hb := (mem_preorder_iff ht).mp hm
    rcases List.mem_cons.mp hid with rfl | ha
    · exact hb
    · exact hb.arg ha
  · intro hb
    exact ⟨id, (mem_preorder_iff ht).mpr hb, List.mem_cons_self⟩

theorem mem_creations_iff (ht : t.Ordered) {node : Node} :
    (id, node) ∈ t.creations root ↔ t.Below root id ∧ t.node? id = some node := by
  rw [creations, List.mem_filterMap]
  constructor
  · rintro ⟨other, hm, he⟩
    obtain ⟨n, hn, he⟩ := Option.map_eq_some_iff.mp he
    cases he
    exact ⟨(mem_creationOrder_iff ht).mp hm, hn⟩
  · rintro ⟨hb, hn⟩
    exact ⟨id, (mem_creationOrder_iff ht).mpr hb, by rw [hn]; rfl⟩

theorem map_fst_creations (t : Table) (root : Nat) :
    (t.creations root).map Prod.fst =
      (t.creationOrder root).filter fun id => (t.node? id).isSome := by
  unfold creations
  induction t.creationOrder root with
  | nil => rfl
  | cons id ids ih =>
    cases hn : t.node? id with
    | none => simpa [hn] using ih
    | some node => simpa [hn] using ih

/-- Every expression is planned once. -/
theorem nodup_creations (t : Table) (root : Nat) : ((t.creations root).map Prod.fst).Nodup := by
  rw [map_fst_creations]
  exact (nodup_eraseDups _).filter _

/-- The arguments that a list of uses names for an operation, in order. -/
def argsUsed (used : List (Nat × Nat)) (id : Nat) : List Nat :=
  (used.filter (·.2 == id)).map Prod.fst

theorem argsUsed_append (used more : List (Nat × Nat)) (id : Nat) :
    argsUsed (used ++ more) id = argsUsed used id ++ argsUsed more id := by
  simp [argsUsed]

theorem argsUsed_block (args : List Nat) (id other : Nat) :
    argsUsed (args.map (·, id)) other = if id = other then args else [] := by
  induction args with
  | nil => simp [argsUsed]
  | cons a args ih =>
    unfold argsUsed at ih ⊢
    by_cases h : id = other
    · simp_all
    · simp_all

/-- **An operation below the root is wired once to each of its arguments, in their order.** -/
theorem argsUsed_uses (ht : t.Ordered) (hb : t.Below root id) :
    argsUsed (t.uses root) id = t.args id := by
  have hblocks : ∀ ids : List Nat, ids.Nodup →
      argsUsed (ids.flatMap fun i => (t.args i).map (·, i)) id =
        if id ∈ ids then t.args id else [] := by
    intro ids hn
    induction ids with
    | nil => rfl
    | cons i ids ih =>
      obtain ⟨hi, hn⟩ := List.nodup_cons.mp hn
      rw [List.flatMap_cons, argsUsed_append, argsUsed_block, ih hn]
      by_cases h : i = id
      · subst h
        simp [hi]
      · simp [h, Ne.symm h]
  rw [uses, hblocks _ (nodup_preorder ht), if_pos ((mem_preorder_iff ht).mpr hb)]

theorem mem_uses_iff (ht : t.Ordered) {arg : Nat} :
    (arg, id) ∈ t.uses root ↔ t.Below root id ∧ arg ∈ t.args id := by
  rw [uses, List.mem_flatMap]
  constructor
  · rintro ⟨other, hm, ha⟩
    obtain ⟨a, ha, he⟩ := List.mem_map.mp ha
    cases he
    exact ⟨(mem_preorder_iff ht).mp hm, ha⟩
  · rintro ⟨hb, ha⟩
    exact ⟨id, (mem_preorder_iff ht).mpr hb, List.mem_map_of_mem ha⟩

end FormulaGraph.Table
