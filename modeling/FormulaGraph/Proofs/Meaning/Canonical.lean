/-
  File:      FormulaGraph/Proofs/Meaning/Canonical.lean
  Subject:   Tables that folding has built, and the values of their ids.

  * `Canonical` -- arguments stand below their operation, every number is an exact fraction in its
    one form, and a sum or a product holds one number at most;
  * `Stands` -- an id and its value; it stays as the table grows;
  * `Gives` -- what a builder has to show, and the builders that fold nothing.
-/
import FormulaGraph.Proofs.Meaning.Interpretation
import FormulaGraph.Proofs.Number.Literal
import FormulaGraph.Proofs.Table.Tree

namespace FormulaGraph

/-- Whether a node is a double. -/
def Node.isFloat : Node → Bool
  | literal (.float _) => true
  | _ => false

namespace Table

variable {t t' : Table} {id : Nat}

/-- Whether no node is a double. -/
def isFloatFree (t : Table) : Bool := t.nodes.all fun node => !node.isFloat

theorem not_isFloat {node : Node} (h : t.isFloatFree = true) (hn : t.node? id = some node) :
    node.isFloat = false := by
  obtain ⟨hlt, hget⟩ := Array.getElem?_eq_some_iff.mp hn
  have hall := Array.all_eq_true.mp h id hlt
  rw [hget] at hall
  simpa using hall

theorem Extends.isFloatFree (h : t.Extends t') (hf : t'.isFloatFree = true) :
    t.isFloatFree = true := by
  refine Array.all_eq_true.mpr fun id hlt => ?_
  have hn : t.node? id = some (t.nodes[id]) := Array.getElem?_eq_getElem hlt
  rw [not_isFloat hf (h id _ hn)]
  rfl

end Table

/-! ## 1. Literals -/

namespace Literal

/-- The constants that are never folded, and the exact fractions in their one form. -/
def Canonical (l : Literal) : Prop :=
  l = pi ∨ l = exp1 ∨ l = complexInfinity ∨ ∃ q, Number.Fits q ∧ l = ofNumber (.exact q)

variable {K : Type*} [Field K] [DecidableEq K]

/-- The value of the literal of a fraction is the rational number. -/
theorem eval_ofNumber [CharZero K] (I : Interpretation K) (q : ℚ) :
    (ofNumber (.exact q)).eval I = some (q : K) := by
  rcases ofNumber_cases q with ⟨hq, hl⟩ | ⟨hq, hl⟩ | ⟨hq, hl⟩ | ⟨hq, hl⟩ | ⟨n, hq, hl⟩ | ⟨-, hl⟩
  · rw [hl, hq, Rat.cast_zero]
    rfl
  · rw [hl, hq, Rat.cast_one]
    rfl
  · rw [hl, hq, Rat.cast_neg, Rat.cast_one]
    rfl
  · rw [hl, hq, one_div, Rat.cast_inv, Rat.cast_ofNat]
    rfl
  · rw [hl, hq, Rat.cast_intCast]
    rfl
  · have hden : ((q.den : Int) : K) ≠ 0 := Int.cast_ne_zero.mpr (Number.den_ne_zero q)
    rw [hl, Rat.cast_def]
    show Interpretation.divide (q.num : K) (q.den : Int) = _
    rw [Interpretation.divide, if_neg hden, Int.cast_natCast]

end Literal

namespace Table

variable {t t' : Table} {id : Nat} {node : Node}

/-! ## 2. Canonical tables -/

/-- What a canonical table asks of a node. -/
def Suits (t : Table) : Node → Prop
  | .symbol _ => True
  | .literal value => value.Canonical
  | .operation op args =>
    (∀ arg ∈ args, arg < t.size) ∧
      (op = .add ∨ op = .mul → (args.filterMap t.numeric?).length ≤ 1)

/-- A table as folding builds it. -/
structure Canonical (t : Table) : Prop where
  ordered : t.Ordered
  indexed : t.Indexed
  suits : ∀ id node, t.node? id = some node → t.Suits node

theorem canonical_empty : empty.Canonical where
  ordered id node hn := by simp [node?, empty] at hn
  indexed node id hl := by simp [empty] at hl
  suits id node hn := by simp [node?, empty] at hn

theorem Suits.extends (h : t.Suits node) (he : t.Extends t') : t'.Suits node := by
  cases node with
  | symbol name => trivial
  | literal value => exact h
  | operation op args =>
    obtain ⟨hlt, hcount⟩ := h
    refine ⟨fun arg ha => he.lt_size (hlt arg ha), fun hop => ?_⟩
    rw [List.filterMap_congr fun arg ha => he.numeric?_eq (hlt arg ha)]
    exact hcount hop

theorem Suits.admits (h : t.Suits node) : t.admits node = true := by
  cases node with
  | symbol name => rfl
  | literal value => rfl
  | operation op args => exact List.all_eq_true.mpr fun arg ha => decide_eq_true (h.1 arg ha)

/-- **Interning a node that suits keeps a table canonical.** -/
theorem Canonical.intern (h : t.Canonical) (hs : t.Suits node) : (t.intern node).2.Canonical where
  indexed := h.indexed.intern node
  ordered := h.ordered.intern hs.admits
  suits id other hn := by
    have hkept := extends_intern t node
    rcases node?_intern_cases hn with hn | rfl
    · exact (h.suits id other hn).extends hkept
    · exact hs.extends hkept

/-! ## 3. Values -/

variable {K : Type*} [Field K] [DecidableEq K] {I : Interpretation K} {x : K}

/-- An id of the table, and the value of its tree. -/
structure Stands (I : Interpretation K) (t : Table) (id : Nat) (x : K) : Prop where
  lt : id < t.size
  eval : (t.tree id).eval I = some x

theorem Stands.extends (h : t.Stands I id x) (ho : t.Ordered) (he : t.Extends t') :
    t'.Stands I id x where
  lt := he.lt_size h.lt
  eval := by
    rw [he.tree_eq ho h.lt]
    exact h.eval

theorem stands_extends_all {args : List Nat} {xs : List K} (h : List.Forall₂ (t.Stands I) args xs)
    (ho : t.Ordered) (he : t.Extends t') : List.Forall₂ (t'.Stands I) args xs :=
  h.imp fun _ _ hs => hs.extends ho he

/-- The complex infinity stands for nothing. -/
theorem Stands.not_isComplexInfinity (h : t.Stands I id x) : t.isComplexInfinity id = false := by
  unfold isComplexInfinity
  rw [beq_eq_false_iff_ne]
  intro hn
  have he := h.eval
  rw [tree_literal hn] at he
  cases he

/-- A number that can be folded is an exact fraction, and the id stands for it. -/
theorem Canonical.numeric [CharZero K] {n : Number} (h : t.Canonical) (hs : t.Stands I id x)
    (hn : t.numeric? id = some n) : ∃ q : ℚ, Number.Fits q ∧ n = .exact q ∧ x = q := by
  unfold numeric? at hn
  split at hn
  · rename_i value hnode
    have he := hs.eval
    rw [tree_literal hnode] at he
    rcases h.suits id _ hnode with rfl | rfl | rfl | ⟨q, hq, rfl⟩
    · cases hn
    · cases hn
    · cases hn
    · rw [Literal.toNumber?_ofNumber (.exact q (.inr hq))] at hn
      have he : (Literal.ofNumber (.exact q)).eval I = some x := he
      rw [Literal.eval_ofNumber] at he
      exact ⟨q, hq, (Option.some.inj hn).symm, (Option.some.inj he).symm⟩
  · cases hn

theorem evalAll_map_tree {args : List Nat} {xs : List K} :
    Tree.evalAll I (args.map t.tree) = some xs ↔
      List.Forall₂ (fun id x => (t.tree id).eval I = some x) args xs := by
  induction args generalizing xs with
  | nil =>
    rw [List.forall₂_nil_left_iff]
    exact ⟨fun h => (Option.some.inj h).symm, fun h => by rw [h]; rfl⟩
  | cons id args ih =>
    rw [List.forall₂_cons_left_iff]
    constructor
    · intro h
      obtain ⟨x, hx, h⟩ := Option.bind_eq_some_iff.mp h
      obtain ⟨ys, hys, h⟩ := Option.bind_eq_some_iff.mp h
      exact ⟨x, ys, hx, ih.mp hys, (Option.some.inj h).symm⟩
    · rintro ⟨x, ys, hx, hys, rfl⟩
      exact Option.bind_eq_some_iff.mpr ⟨x, hx, Option.bind_eq_some_iff.mpr ⟨ys, ih.mpr hys, rfl⟩⟩

/-- An operation stands for what it makes of the values of its arguments. -/
theorem Canonical.stands_operation {op : Operator} {args : List Nat} (h : t.Canonical)
    (hn : t.node? id = some (.operation op args)) :
    t.Stands I id x ↔ ∃ xs, List.Forall₂ (t.Stands I) args xs ∧ I.operation op xs = some x := by
  have hlt : ∀ arg ∈ args, arg < t.size := (h.suits id _ hn).1
  constructor
  · intro hs
    have he := hs.eval
    rw [h.ordered.tree_operation hn] at he
    obtain ⟨xs, hxs, hx⟩ := Option.bind_eq_some_iff.mp he
    have hboth := List.forall₂_and_left _ _ |>.mpr ⟨hlt, evalAll_map_tree.mp hxs⟩
    exact ⟨xs, hboth.imp fun _ _ hs => ⟨hs.1, hs.2⟩, hx⟩
  · rintro ⟨xs, hxs, hx⟩
    refine ⟨node?_eq_some_lt hn, ?_⟩
    rw [h.ordered.tree_operation hn]
    exact Option.bind_eq_some_iff.mpr
      ⟨xs, evalAll_map_tree.mpr (hxs.imp fun _ _ hs => hs.eval), hx⟩

/-! ## 4. Building -/

/-- What building gives: a canonical table, and an id in it that stands for the value. -/
structure Gives (I : Interpretation K) (result : Nat × Table) (x : K) : Prop where
  canonical : result.2.Canonical
  stands : result.2.Stands I result.1 x

theorem Canonical.gives_symbol (h : t.Canonical) (name : String) :
    Gives I (t.symbol name) (I.symbol name) := by
  have hn := h.indexed.node?_intern (.symbol name)
  refine ⟨h.intern trivial, node?_eq_some_lt hn, ?_⟩
  rw [symbol, tree_symbol hn]
  rfl

theorem Canonical.gives_literal {value : Literal} (h : t.Canonical) (hl : value.Canonical)
    (he : value.eval I = some x) : Gives I (t.literal value) x := by
  have hn := h.indexed.node?_intern (.literal value)
  refine ⟨h.intern hl, node?_eq_some_lt hn, ?_⟩
  rw [literal, tree_literal hn]
  exact he

/-- A number that left no double behind is exact. -/
theorem Canonical.gives_number [CharZero K] {q : ℚ} (h : t.Canonical)
    (hf : (t.number (.ofRat q)).2.isFloatFree = true) : Gives I (t.number (.ofRat q)) (q : K) := by
  by_cases hq : Number.Fits q
  · rw [Number.ofRat_of_fits hq]
    exact h.gives_literal (.inr (.inr (.inr ⟨q, hq, rfl⟩))) (Literal.eval_ofNumber I q)
  · rw [Number.ofRat, if_neg hq] at hf
    cases not_isFloat hf (h.indexed.node?_intern _)

theorem Canonical.gives_operation {op : Operator} {args : List Nat} {xs : List K}
    (h : t.Canonical) (ha : List.Forall₂ (t.Stands I) args xs)
    (hcount : op = .add ∨ op = .mul → (args.filterMap t.numeric?).length ≤ 1)
    (hx : I.operation op xs = some x) : Gives I (t.operation op args) x := by
  have hn := h.indexed.node?_intern (.operation op args)
  have hlt : ∀ arg ∈ args, arg < t.size :=
    (List.forall₂_and_left _ _ |>.mp (ha.imp fun _ _ hs => ⟨hs.lt, hs⟩)).1
  have hsuits : t.Suits (.operation op args) := ⟨hlt, hcount⟩
  have hcanonical := h.intern hsuits
  refine ⟨hcanonical, (hcanonical.stands_operation hn).mpr ⟨xs, ?_, hx⟩⟩
  exact stands_extends_all ha h.ordered (extends_intern t _)

/-- An operation that is not folded may have any arguments. -/
theorem Canonical.gives_function {op : Operator} {args : List Nat} {xs : List K}
    (hop : op ≠ .add ∧ op ≠ .mul) (h : t.Canonical) (ha : List.Forall₂ (t.Stands I) args xs)
    (hx : I.operation op xs = some x) : Gives I (t.operation op args) x :=
  h.gives_operation ha (fun hsum => absurd hsum (not_or.mpr hop)) hx

end Table

end FormulaGraph
