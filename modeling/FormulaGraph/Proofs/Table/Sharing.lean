/-
  File:      FormulaGraph/Proofs/Table/Sharing.lean
  Subject:   Equal expressions share an id.

  Interning compares one level only, the operator and the ids of the arguments. If every node of a
  table was interned, that is enough to tell whole trees apart: arguments stand below their
  operation, so equal trees have equal arguments before they have equal ids.

  * `Complete` -- every node is interned under its own id; interning keeps it so;
  * `Complete.eq_of_tree_eq` -- ids with equal trees are equal;
  * `Addition`, `addAll` -- pushing and interning in any order, step by step, with refusals;
  * `shared_readAll` -- what reading formulas gives, and what is left of it if nodes are pushed too.
-/
import FormulaGraph.Proofs.Table.Normal
import FormulaGraph.Proofs.Table.Tree

namespace FormulaGraph

variable {t t' : Table} {id : Nat} {node : Node}

/-- Equal scalars have equal bits. A `Float` has one NaN, so its sign is asked for apart. -/
theorem Scalar.eq_iff_toBits {x y : Scalar} :
    x = y ↔ x.value.toBits = y.value.toBits ∧ x.isNegativeNaN = y.isNegativeNaN := by
  constructor
  · intro h
    exact ⟨h ▸ rfl, h ▸ rfl⟩
  · intro ⟨hbits, hsign⟩
    obtain ⟨⟨⟨x, hx⟩⟩, a, ha⟩ := x
    obtain ⟨⟨⟨y, hy⟩⟩, b, hb⟩ := y
    cases hbits
    cases hsign
    rfl

namespace Table

/-! ## 1. Tables of interned nodes -/

/-- Every node is interned under its own id. -/
def Complete (t : Table) : Prop :=
  ∀ id node, t.node? id = some node → t.interned.lookup node = some id

theorem complete_empty : empty.Complete := by
  intro id node hn
  simp [node?, empty] at hn

/-- What was interned stays interned. -/
theorem lookup_intern_of_some {other : Node} (h : t.interned.lookup other = some id) :
    (t.intern node).2.interned.lookup other = some id := by
  unfold intern
  split
  · exact h
  · rename_i hnone
    show ((node, t.size) :: t.interned).lookup other = some id
    rw [List.lookup_cons]
    split
    · rename_i heq
      rw [beq_iff_eq.mp heq, hnone] at h
      cases h
    · exact h

theorem lookup_intern_self (t : Table) (node : Node) :
    (t.intern node).2.interned.lookup node = some (t.intern node).1 := by
  unfold intern
  split
  · rename_i hl
    exact hl
  · exact List.lookup_cons_self

theorem Complete.intern (h : t.Complete) (node : Node) : (t.intern node).2.Complete := by
  intro id other hn
  rcases node?_intern_cases hn with hold | rfl
  · exact lookup_intern_of_some (h id other hold)
  · -- the id is the one given back: under any other, the node would have been found before
    rw [lookup_intern_self]
    by_cases hid : id < t.size
    · have hold : t.node? id = some other := ((extends_intern t other).node?_eq hid).symm.trans hn
      unfold Table.intern
      rw [h id other hold]
    · have hsize : id < (t.intern other).2.size := node?_eq_some_lt hn
      unfold Table.intern at hsize ⊢
      split at hsize
      · exact absurd hsize hid
      · have hlt : id < t.size + 1 := by
          rw [← size_push t other]
          exact hsize
        show some t.size = some id
        rw [show id = t.size by omega]

theorem Interns.complete (h : t.Interns t') (hc : t.Complete) : t'.Complete := by
  induction h with
  | refl => exact hc
  | intern _ node ih => exact ih.intern node

/-- **Ids with equal trees are equal.** -/
theorem Complete.eq_of_tree_eq (hc : t.Complete) (ho : t.Ordered) {a b : Nat} (ha : a < t.size)
    (hb : b < t.size) (h : t.tree a = t.tree b) : a = b := by
  induction a using Nat.strongRecOn generalizing b with
  | ind a ih =>
    obtain ⟨node, hn⟩ := exists_node ha
    obtain ⟨other, hm⟩ := exists_node hb
    rw [ho.tree_eq hn, ho.tree_eq hm] at h
    have hargs : ∀ x ∈ node.args, ∀ y ∈ other.args, t.tree x = t.tree y → x = y := by
      intro x hx y hy hxy
      have hlt := ho a node hn x hx
      exact ih x hlt (Nat.lt_trans hlt ha) (Nat.lt_trans (ho b other hm y hy) hb) hxy
    obtain rfl : node = other := node.rename_id ▸ Node.rename_eq_of_treeOver_eq hargs h
    exact Option.some.inj ((hc a node hn).symm.trans (hc b node hm))

/-- Sharing in full: one id for each tree. -/
structure Shared (t : Table) : Prop where
  ordered : t.Ordered
  tree_eq_iff : ∀ a b, a < t.size → b < t.size → (t.tree a = t.tree b ↔ a = b)
  float_bits : ∀ a b x y, t.node? a = some (.literal (.float x)) →
    t.node? b = some (.literal (.float y)) →
    (a = b ↔ x.value.toBits = y.value.toBits ∧ x.isNegativeNaN = y.isNegativeNaN)

theorem Complete.shared (hc : t.Complete) (ho : t.Ordered) : t.Shared where
  ordered := ho
  tree_eq_iff a b ha hb := ⟨hc.eq_of_tree_eq ho ha hb, fun h => h ▸ rfl⟩
  float_bits a b x y hx hy := by
    rw [← Scalar.eq_iff_toBits]
    constructor
    · rintro rfl
      cases hx.symm.trans hy
      rfl
    · rintro rfl
      exact Option.some.inj ((hc a _ hx).symm.trans (hc b _ hy))

/-! ## 2. Reading -/

theorem readAll_concat (texts : List (List Char)) (cs : List Char) :
    readAll (texts ++ [cs]) = stateOf (read cs (readAll texts)) := by
  simp [readAll]

theorem interns_readAll (texts more : List (List Char)) :
    (readAll texts).Interns (readAll (texts ++ more)) := by
  induction more generalizing texts with
  | nil =>
    rw [List.append_nil]
    exact .refl
  | cons cs more ih =>
    have hread : (readAll texts).Interns (readAll (texts ++ [cs])) := by
      rw [readAll_concat]
      exact grows_read cs _
    rw [List.append_cons]
    exact hread.trans (ih (texts ++ [cs]))

theorem complete_readAll (texts : List (List Char)) : (readAll texts).Complete :=
  (interns_readAll [] texts).complete complete_empty

/-! ## 3. Pushing too -/

/-- Adding a node in either way. -/
inductive Addition where
  | push (node : Node)
  | intern (node : Node)

namespace Addition

/-- Pushing, step by step. -/
def pushing (node : Node) : EStateM Unit Table Nat := do
  if (← get).admits node then modifyGet (·.push node) else throw ()

/-- The addition, step by step. What was done before a refusal stays. -/
def perform : Addition → EStateM Unit Table Nat
  | push node => pushing node
  | intern node => do
    match (← get).interned.lookup node with
    | some id => return id
    | none =>
      let id ← pushing node
      modify fun t => { t with interned := (node, id) :: t.interned }
      return id

/-- The addition as a whole. -/
def attempt (t : Table) : Addition → Option (Nat × Table)
  | push node => t.push? node
  | intern node => t.intern? node

theorem pushing_eq (t : Table) (node : Node) :
    pushing node t = if t.admits node then .ok t.size (t.push node).2 else .error () t := by
  show (if t.admits node then modifyGet (·.push node) else throw () : EStateM Unit Table Nat) t = _
  split <;> rfl

/-- **A refused addition has done nothing**: the check comes before every change. -/
theorem perform_eq (a : Addition) (t : Table) :
    a.perform t = match a.attempt t with
      | some (id, t') => .ok id t'
      | none => .error () t := by
  cases a with
  | push node =>
    show pushing node t = _
    rw [pushing_eq]
    simp only [attempt, push?]
    cases t.admits node <;> rfl
  | intern node =>
    simp only [attempt, intern?, Table.intern]
    show (match t.interned.lookup node with
      | some id => pure id
      | none => pushing node >>= fun id =>
        modify (fun t => { t with interned := (node, id) :: t.interned }) >>= fun _ => pure id
      : EStateM Unit Table Nat) t = _
    cases hl : t.interned.lookup node with
    | some id => rfl
    | none =>
      show EStateM.bind (pushing node) _ t = _
      unfold EStateM.bind
      rw [pushing_eq]
      cases t.admits node <;> rfl

end Addition

/-- The table after additions; those that are refused are passed over. -/
def addAll (t : Table) (additions : List Addition) : Table :=
  additions.foldl (fun t a => stateOf (a.perform t)) t

theorem Built.perform (h : t.Built) (a : Addition) : (stateOf (a.perform t)).Built := by
  rw [a.perform_eq]
  cases ha : a.attempt t with
  | none => exact h
  | some result =>
    cases a with
    | push node => exact h.push ha
    | intern node => exact h.intern ha

theorem Built.addAll (h : t.Built) (additions : List Addition) : (t.addAll additions).Built := by
  induction additions generalizing t with
  | nil => exact h
  | cons a additions ih => exact ih (h.perform a)

theorem push?_eq_some {result : Nat × Table} (h : t.push? node = some result) :
    result = t.push node := by
  unfold push? at h
  split at h
  · exact (Option.some.inj h).symm
  · cases h

theorem intern?_eq_some {result : Nat × Table} (h : t.intern? node = some result) :
    result = t.intern node := by
  unfold intern? at h
  split at h
  · exact (Option.some.inj h).symm
  · cases h

theorem Built.indexed (h : t.Built) : t.Indexed := by
  induction h with
  | empty => exact normal_empty.indexed
  | push _ pushed ih =>
    rw [push?_eq_some pushed]
    intro node id hl
    exact extends_push _ _ id node (ih node id hl)
  | intern _ interned ih =>
    rw [intern?_eq_some interned]
    exact ih.intern _

theorem lookup_perform (h : t.interned.lookup node = some id) (a : Addition) :
    (stateOf (a.perform t)).interned.lookup node = some id := by
  rw [a.perform_eq]
  cases ha : a.attempt t with
  | none => exact h
  | some result =>
    cases a with
    | push other =>
      rw [push?_eq_some ha]
      exact h
    | intern other =>
      rw [intern?_eq_some ha]
      exact lookup_intern_of_some h

theorem lookup_addAll (h : t.interned.lookup node = some id) (additions : List Addition) :
    (t.addAll additions).interned.lookup node = some id := by
  induction additions generalizing t with
  | nil => exact h
  | cons a additions ih => exact ih (lookup_perform h a)

theorem perform_intern_of_lookup (h : t.interned.lookup node = some id) :
    (Addition.intern node).perform t = .ok id t := by
  have hattempt : (Addition.intern node).attempt t = some (id, t) := by
    show t.intern? node = some (id, t)
    unfold intern? intern
    rw [h]
    rfl
  rw [Addition.perform_eq, hattempt]

theorem lookup_of_perform_intern (h : (Addition.intern node).perform t = .ok id t') :
    t'.interned.lookup node = some id := by
  rw [Addition.perform_eq] at h
  cases ha : (Addition.intern node).attempt t with
  | none =>
    rw [ha] at h
    cases h
  | some result =>
    rw [ha, intern?_eq_some ha] at h
    cases h
    exact lookup_intern_self t node

/-- An argument is not in the table, and no equal node is interned that could stand in. -/
def Addition.IsForward (t : Table) : Addition → Prop
  | push node => ∃ arg ∈ node.args, t.size ≤ arg
  | intern node => t.interned.lookup node = none ∧ ∃ arg ∈ node.args, t.size ≤ arg

theorem admits_eq_false_iff : t.admits node = false ↔ ∃ arg ∈ node.args, t.size ≤ arg := by
  unfold admits
  rw [List.all_eq_false]
  simp

theorem attempt_eq_none_iff (a : Addition) : a.attempt t = none ↔ a.IsForward t := by
  cases a with
  | push node =>
    show t.push? node = none ↔ ∃ arg ∈ node.args, t.size ≤ arg
    rw [← admits_eq_false_iff]
    unfold push?
    cases t.admits node <;> simp
  | intern node =>
    show t.intern? node = none ↔ t.interned.lookup node = none ∧ ∃ arg ∈ node.args, t.size ≤ arg
    rw [← admits_eq_false_iff]
    unfold intern?
    generalize t.interned.lookup node = found
    cases found <;> cases t.admits node <;> simp

theorem perform_error_iff (a : Addition) :
    a.perform t = .error () t' ↔ a.IsForward t ∧ t' = t := by
  rw [a.perform_eq, ← attempt_eq_none_iff]
  cases a.attempt t with
  | none => simp [eq_comm]
  | some result => simp

/-- What interning still gives if nodes are pushed too: a node that was interned keeps its id, and a
    refusal changes nothing. -/
structure Reliable (t : Table) : Prop where
  stored : ∀ node id, t.interned.lookup node = some id → t.node? id = some node
  recorded : ∀ node id t', (Addition.intern node).perform t = .ok id t' →
    t'.interned.lookup node = some id
  returned : ∀ node id, t.interned.lookup node = some id → ∀ more : List Addition,
    (Addition.intern node).perform (t.addAll more) = .ok id (t.addAll more)
  refused : ∀ (a : Addition) (t' : Table), a.perform t = .error () t' ↔ a.IsForward t ∧ t' = t

/-- **Formulas share all they have in common.** Reading formulas leaves one id for each tree, and no
    reading changes a node that is there; and a table with pushed nodes is reliable. -/
theorem shared_readAll (texts more : List (List Char)) (additions : List Addition) :
    (readAll texts).Shared ∧ (readAll texts).Extends (readAll (texts ++ more)) ∧
      (empty.addAll additions).Reliable := by
  refine ⟨?_, (interns_readAll texts more).extends, ?_⟩
  · exact (complete_readAll texts).shared (normal_empty.foldl_read texts).ordered
  · have hbuilt := Built.empty.addAll additions
    exact ⟨hbuilt.indexed, fun _ _ _ h => lookup_of_perform_intern h,
      fun _ _ h more => perform_intern_of_lookup (lookup_addAll h more),
      fun a _ => perform_error_iff a⟩

end Table

end FormulaGraph
