/-
  File:      FormulaGraph/Proofs/Table/Growth.lean
  Subject:   A table grows and never changes.

  All that builders and lowering do to a table is interning nodes. That is said once, for a lowering
  that fails too; what interning keeps is then kept by everything.

  * `Extends` -- nodes are added and none is changed;
  * `node?_intern_cases`, `Ordered.intern`, `Indexed.intern` -- what interning adds, and what it
    keeps;
  * `Interns` -- nodes are interned, one after the other; every builder does so;
  * `Formula.grows_lower` -- lowering does nothing else.
-/
import FormulaGraph.Lowering
import FormulaGraph.Proofs.Bind
import FormulaGraph.Proofs.Table.Reach

namespace FormulaGraph

variable {t t' : Table} {id : Nat} {node : Node} {span : Span}

namespace Table

/-! ## 1. Keeping nodes -/

/-- Every node is kept under its id. -/
def Extends (t t' : Table) : Prop := ∀ id node, t.node? id = some node → t'.node? id = some node

theorem Extends.refl (t : Table) : t.Extends t := fun _ _ h => h

theorem Extends.trans {t'' : Table} (h : t.Extends t') (h' : t'.Extends t'') : t.Extends t'' :=
  fun id node hn => h' id node (h id node hn)

theorem Extends.node?_eq (h : t.Extends t') (hlt : id < t.size) : t'.node? id = t.node? id := by
  obtain ⟨node, hn⟩ := exists_node hlt
  rw [hn, h id node hn]

theorem Extends.lt_size (h : t.Extends t') (hlt : id < t.size) : id < t'.size := by
  rw [← isSome_node?_iff, h.node?_eq hlt]
  exact isSome_node?_iff.mpr hlt

theorem Extends.numeric?_eq (h : t.Extends t') (hlt : id < t.size) :
    t'.numeric? id = t.numeric? id := by
  unfold numeric?
  rw [h.node?_eq hlt]

theorem extends_push (t : Table) (node : Node) : t.Extends (t.push node).2 := by
  intro id other hn
  rw [node?_push_of_lt (node?_eq_some_lt hn)]
  exact hn

/-! ## 2. Interning -/

theorem extends_intern (t : Table) (node : Node) : t.Extends (t.intern node).2 := by
  unfold intern
  split
  · exact .refl t
  · exact extends_push t node

/-- What is interned is found under the id that is given back. -/
theorem Indexed.node?_intern (h : t.Indexed) (node : Node) :
    (t.intern node).2.node? (t.intern node).1 = some node := by
  unfold intern
  split
  · rename_i id hl
    exact h node id hl
  · exact node?_push_self t node

theorem Indexed.intern (h : t.Indexed) (node : Node) : (t.intern node).2.Indexed := by
  intro other id hl
  have hkept := extends_intern t node
  have hself := h.node?_intern node
  unfold Table.intern at hl hkept hself ⊢
  split at hl
  · exact h other id hl
  · rename_i hnone
    rw [hnone] at hkept hself
    rw [List.lookup_cons] at hl
    split at hl
    · rename_i heq
      cases hl
      rw [beq_iff_eq.mp heq]
      exact hself
    · exact hkept id other (h other id hl)

/-- A node that is there after interning was there before, or it is the interned one. -/
theorem node?_intern_cases {other : Node} (h : (t.intern node).2.node? id = some other) :
    t.node? id = some other ∨ other = node := by
  unfold intern at h
  split at h
  · exact .inl h
  · have hlt : id < t.size + 1 := by
      rw [← size_push t node]
      exact node?_eq_some_lt h
    by_cases hid : id < t.size
    · exact .inl ((node?_push_of_lt hid).symm.trans h)
    · obtain rfl : id = t.size := by omega
      exact .inr (Option.some.inj (h.symm.trans (node?_push_self t node)))

theorem Ordered.intern (h : t.Ordered) (ha : t.admits node = true) : (t.intern node).2.Ordered := by
  unfold Table.intern
  split
  · exact h
  · exact (h.push ha).of_nodes rfl

/-! ## 3. Builders -/

/-- Nodes are interned, one after the other. -/
inductive Interns (t : Table) : Table → Prop where
  | refl : Interns t t
  | intern {t' : Table} (h : Interns t t') (node : Node) : Interns t (t'.intern node).2

theorem Interns.trans {t'' : Table} (h : t.Interns t') (h' : t'.Interns t'') : t.Interns t'' := by
  induction h' with
  | refl => exact h
  | intern _ node ih => exact ih.intern node

theorem Interns.extends (h : t.Interns t') : t.Extends t' := by
  induction h with
  | refl => exact .refl t
  | intern _ node ih => exact ih.trans (extends_intern _ node)

theorem interns_intern (t : Table) (node : Node) : t.Interns (t.intern node).2 :=
  Interns.refl.intern node

theorem combine_some (t : Table) (op : Operator) (c : Number) (first : Nat) (rest : List Nat)
    (alone : Number) :
    t.combine op (some c) (first :: rest) alone =
      (t.number c).2.operation op ((t.number c).1 :: first :: rest) := by
  cases rest
  · rfl
  · rfl

theorem interns_combine (t : Table) (op : Operator) (coefficient : Option Number)
    (others : List Nat) (alone : Number) :
    t.Interns (t.combine op coefficient others alone).2 := by
  unfold combine
  split
  · exact interns_intern t _
  · exact .refl
  · exact interns_intern t _
  · exact (interns_intern t _).intern _

theorem interns_sum (t : Table) (args : List Nat) : t.Interns (t.sum args).2 := by
  unfold sum
  dsimp only
  split
  · exact interns_intern t _
  · exact interns_combine t _ _ _ _

theorem interns_product (t : Table) (args : List Nat) : t.Interns (t.product args).2 := by
  unfold product
  dsimp only
  split
  · exact interns_intern t _
  · split
    · exact interns_intern t _
    · exact interns_combine t _ _ _ _

/-- What a power is, if it is one. -/
inductive Powered (t : Table) (base exponent : Nat) : Nat × Table → Prop where
  | base (h : (t.numeric? exponent).any Number.isOne = true) : Powered t base exponent (base, t)
  | one
      (h : ((t.numeric? exponent).any Number.isZero || (t.numeric? base).any Number.isOne) = true) :
      Powered t base exponent (t.number .one)
  | infinity {b e : Number} (hb : t.numeric? base = some b) (he : t.numeric? exponent = some e)
      (h : (b.isZero && e.isNegative) = true) : Powered t base exponent (t.literal .complexInfinity)
  | number {b e n : Number} (hb : t.numeric? base = some b) (he : t.numeric? exponent = some e)
      (h : b.pow? e = .ok (some n)) : Powered t base exponent (t.number n)
  | operation (hone : (t.numeric? exponent).any Number.isOne = false)
      (htrivial : ((t.numeric? exponent).any Number.isZero || (t.numeric? base).any Number.isOne) =
        false)
      (h : ∀ b e, t.numeric? base = some b → t.numeric? exponent = some e →
        b.pow? e = .ok none ∧ (b.isZero && e.isNegative) = false) :
      Powered t base exponent (t.operation .pow [base, exponent])

/-- **What `power` can give.** -/
theorem powered {base exponent : Nat} {result : Nat × Table}
    (h : t.power base exponent = .ok result) : t.Powered base exponent result := by
  unfold power at h
  dsimp only at h
  split at h
  · rename_i hone
    cases h
    exact .base hone
  · rename_i hone
    have hone := Bool.eq_false_iff.mpr hone
    split at h
    · rename_i htrivial
      cases h
      exact .one htrivial
    · rename_i htrivial
      have htrivial := Bool.eq_false_iff.mpr htrivial
      split at h
      · rename_i b e hb he
        obtain ⟨folded, hfold, h⟩ := bind_ok_iff.mp h
        unfold foldedPower at hfold
        split at hfold
        · rename_i hpole
          cases hfold
          cases h
          exact .infinity hb he hpole
        · rename_i hpole
          obtain ⟨n?, hn, hfold⟩ := bind_ok_iff.mp hfold
          cases hfold
          cases n? with
          | some n =>
            cases h
            exact .number hb he hn
          | none =>
            cases h
            refine .operation hone htrivial fun b' e' hb' he' => ?_
            cases hb.symm.trans hb'
            cases he.symm.trans he'
            exact ⟨hn, Bool.eq_false_iff.mpr hpole⟩
      · rename_i hnot
        cases h
        exact .operation hone htrivial fun b e hb he => (hnot b e hb he).elim

/-- Only a power of two numbers overflows. -/
theorem power_overflow {base exponent : Nat} {cause : Number.Overflow}
    (h : t.power base exponent = .error cause) :
    ∃ b e, t.numeric? base = some b ∧ t.numeric? exponent = some e ∧ b.pow? e = .error cause := by
  unfold power at h
  dsimp only at h
  split at h
  · cases h
  · split at h
    · cases h
    · split at h
      · rename_i b e hb he
        rcases bind_error_iff.mp h with h | ⟨_, _, h⟩
        · unfold foldedPower at h
          split at h
          · cases h
          · rcases bind_error_iff.mp h with h | ⟨_, _, h⟩
            · exact ⟨b, e, hb, he, h⟩
            · cases h
        · cases h
      · cases h

theorem interns_power {base exponent : Nat} {result : Nat × Table}
    (h : t.power base exponent = .ok result) : t.Interns result.2 := by
  cases powered h with
  | base _ => exact .refl
  | one _ => exact interns_intern t _
  | infinity _ _ _ => exact interns_intern t _
  | number _ _ _ => exact interns_intern t _
  | operation _ _ _ => exact interns_intern t _

theorem interns_remainder? {a b : Nat} {result : Nat × Table} (h : t.remainder? a b = some result) :
    t.Interns result.2 := by
  unfold remainder? at h
  split at h
  · obtain ⟨n, -, rfl⟩ := Option.map_eq_some_iff.mp h
    exact interns_intern t _
  · cases h
    exact interns_intern t _

theorem interns_negate (t : Table) (id : Nat) : t.Interns (t.negate id).2 :=
  (interns_intern t _).trans (interns_product _ _)

theorem extends_sum (t : Table) (args : List Nat) : t.Extends (t.sum args).2 :=
  (interns_sum t args).extends

theorem extends_product (t : Table) (args : List Nat) : t.Extends (t.product args).2 :=
  (interns_product t args).extends

theorem extends_negate (t : Table) (id : Nat) : t.Extends (t.negate id).2 :=
  (interns_negate t id).extends

end Table

/-! ## 4. Lowering -/

namespace Lowering

variable {α β : Type}

/-- A step does nothing to a table but intern nodes, whether it succeeds or not. -/
def Grows (m : Lowering α) : Prop := ∀ t : Table, t.Interns (stateOf (m t))

theorem Grows.interns {m : Lowering α} {x : α} (hm : Grows m) (h : m t = .ok x t') :
    t.Interns t' := by
  have hgrown := hm t
  rwa [h] at hgrown

theorem Grows.extends {m : Lowering α} {x : α} (hm : Grows m) (h : m t = .ok x t') :
    t.Extends t' := (hm.interns h).extends

theorem Grows.bind {m : Lowering α} {f : α → Lowering β} (hm : Grows m) (hf : ∀ x, Grows (f x)) :
    Grows (m >>= f) := by
  intro t
  have hfirst := hm t
  show t.Interns (stateOf (EStateM.bind m f t))
  unfold EStateM.bind
  cases hr : m t with
  | ok x t₁ =>
    rw [hr] at hfirst
    exact hfirst.trans (hf x t₁)
  | error e t₁ =>
    rw [hr] at hfirst
    exact hfirst

theorem grows_pure (x : α) : Grows (pure x : Lowering α) := fun _ => .refl

theorem grows_throw (e : Stop FormulaError) : Grows (throw e : Lowering α) := fun _ => .refl

theorem grows_build {f : Table → Nat × Table} (hf : ∀ t : Table, t.Interns (f t).2) :
    Grows (build f) := hf

theorem extends_build {f : Table → Nat × Table} (hf : ∀ t : Table, t.Extends (f t).2)
    (h : build f t = .ok id t') : t.Extends t' := by
  cases h
  exact hf t

theorem power_ok_iff {base exponent : Nat} :
    power base exponent t = .ok id t' ↔ t.power base exponent = .ok (id, t') := by
  unfold power
  cases t.power base exponent with
  | ok result => simp [Prod.ext_iff]
  | error overflow => simp

theorem grows_power (base exponent : Nat) : Grows (power base exponent) := by
  intro t
  unfold power
  split
  · rename_i hr
    exact Table.interns_power hr
  · exact .refl

theorem grows_reciprocal (id : Nat) : Grows (reciprocal id) :=
  (grows_build fun t => t.interns_intern _).bind fun _ => grows_power _ _

theorem grows_symbol (name : String) : Grows (symbol name) := by
  unfold symbol
  split <;> exact grows_build fun t => t.interns_intern _

theorem grows_remainder (a b : Nat) : Grows (remainder a b span) := by
  intro t
  unfold remainder
  split
  · rename_i hr
    exact Table.interns_remainder? hr
  · exact .refl

theorem grows_binary (op : BinaryOp) (a b : Nat) : Grows (binary op a b span) := by
  cases op with
  | add => exact grows_build fun t => t.interns_sum _
  | subtract =>
    exact (grows_build fun t => t.interns_negate _).bind fun _ =>
      grows_build fun t => t.interns_sum _
  | multiply => exact grows_build fun t => t.interns_product _
  | divide =>
    exact (grows_reciprocal _).bind fun _ => grows_build fun t => t.interns_product _
  | modulo => exact grows_remainder a b
  | power => exact grows_power _ _

theorem extends_binary {op : BinaryOp} {a b : Nat} (h : binary op a b span t = .ok id t') :
    t.Extends t' := (grows_binary op a b).extends h

theorem grows_call (op : Operator) (args : List Nat) : Grows (call op args span) := by
  have hintern : ∀ node : Node, Grows (build (·.intern node)) :=
    fun node => grows_build fun t => t.interns_intern node
  unfold call
  split
  · refine (hintern _).bind fun above => (hintern _).bind fun below => ?_
    exact (grows_reciprocal _).bind fun inverse => grows_build fun t => t.interns_product _
  · exact grows_pure _
  · exact grows_pure _
  · exact grows_remainder _ _
  · exact hintern _

theorem extends_call {op : Operator} {args : List Nat} (h : call op args span t = .ok id t') :
    t.Extends t' := (grows_call op args).extends h

end Lowering

namespace Formula

open Lowering (Grows)

/-- A call that is lowered has as many arguments as its function accepts. -/
theorem lower_call_ok {name : String} {arguments : List Formula}
    (h : (call name arguments span).lower t = .ok id t') :
    (Operator.ofCall name).2.accepts arguments.length = true ∧
      ∃ args t₁, lowerAll arguments t = .ok args t₁ ∧
        Lowering.call (Operator.ofCall name).1 args span t₁ = .ok id t' := by
  have hif : (if (Operator.ofCall name).2.accepts arguments.length then
      lowerAll arguments >>= fun args => Lowering.call (Operator.ofCall name).1 args span
      else throw (.refused (.wrongArity name (Operator.ofCall name).2 arguments.length span))) t =
        .ok id t' := h
  split at hif
  · rename_i haccepts
    exact ⟨haccepts, bindM_ok_iff.mp hif⟩
  · cases hif

mutual
/-- **Lowering only interns nodes**, also where it fails. -/
theorem grows_lower : ∀ f : Formula, Grows f.lower
  | integer value _ => Lowering.grows_build fun t => t.interns_intern _
  | float value _ => Lowering.grows_build fun t => t.interns_intern _
  | symbol name _ => Lowering.grows_symbol name
  | binary op left right _ =>
      (grows_lower left).bind fun a =>
        (grows_lower right).bind fun b => Lowering.grows_binary op a b
  | negative operand _ =>
      (grows_lower operand).bind fun _ => Lowering.grows_build fun t => t.interns_negate _
  | call name arguments span => by
      show Grows (if (Operator.ofCall name).2.accepts arguments.length then
        lowerAll arguments >>= fun args => Lowering.call (Operator.ofCall name).1 args span
        else throw (.refused (.wrongArity name (Operator.ofCall name).2 arguments.length span)))
      split
      · exact (grows_lowerAll arguments).bind fun args => Lowering.grows_call _ args
      · exact Lowering.grows_throw _
  | group inner _ => grows_lower inner

theorem grows_lowerAll : ∀ fs : List Formula, Grows (lowerAll fs)
  | [] => Lowering.grows_pure _
  | f :: fs => (grows_lower f).bind fun _ => (grows_lowerAll fs).bind fun _ => Lowering.grows_pure _
end

theorem extends_lower (f : Formula) (h : f.lower t = .ok id t') : t.Extends t' :=
  (grows_lower f).extends h

theorem extends_lowerAll (fs : List Formula) {ids : List Nat} (h : lowerAll fs t = .ok ids t') :
    t.Extends t' := (grows_lowerAll fs).extends h

end Formula

theorem Table.grows_read (cs : List Char) : Lowering.Grows (Table.read cs) := by
  unfold Table.read
  cases Formula.parse cs with
  | ok f => exact f.grows_lower
  | error e => exact Lowering.grows_throw (.refused e)

end FormulaGraph
