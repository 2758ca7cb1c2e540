/-
  File:      FormulaGraph/Proofs/History/Lowering.lean
  Subject:   Lowering gives the tree of the formula, whatever the table holds.

  * `Computes` -- a step on a table gives what a computation without a table gives;
  * `Finds` -- it does, and what it gives is rooted;
  * `Formula.lower_finds` -- lowering does, in every grounded table;
  * `Table.read_computes` -- so does reading a text.
-/
import FormulaGraph.Proofs.History.Expression
import FormulaGraph.Proofs.Table.Rooted

namespace FormulaGraph

variable {t : Table}

namespace Lowering

variable {α β γ δ : Type} {a b : Nat} {span : Span}

/-- A step on a table and a computation without one: both fail with the same error, or what the
    step gives has the value that was computed. -/
def Computes (value : Table → α → γ) :
    EStateM.Result (Stop FormulaError) Table α → Except (Stop FormulaError) γ → Prop
  | .ok x t, .ok y => value t x = y
  | .error e _, .error e' => e = e'
  | _, _ => False

/-- The trees of ids. -/
def treesIn (t : Table) (ids : List Nat) : List Tree := ids.map t.tree

/-- A step computes its value, and leaves a grounded table in which its result is as told. -/
def Finds (P : Table → α → Prop) (value : Table → α → γ)
    (result : EStateM.Result (Stop FormulaError) Table α)
    (computed : Except (Stop FormulaError) γ) : Prop :=
  Computes value result computed ∧ ∀ x t, result = .ok x t → t.Grounded ∧ P t x

theorem Finds.exists_ok {P : Table → α → Prop} {v : Table → α → γ} {y : γ}
    {result : EStateM.Result (Stop FormulaError) Table α} (h : Finds P v result (.ok y)) :
    ∃ x t, result = .ok x t ∧ t.Grounded ∧ P t x ∧ v t x = y := by
  obtain ⟨hcomputes, hleft⟩ := h
  cases result with
  | error e t => exact hcomputes.elim
  | ok x t =>
    obtain ⟨hground, hx⟩ := hleft x t rfl
    exact ⟨x, t, rfl, hground, hx, hcomputes⟩

/-- One step after another. The second may rely on what the first has left. -/
theorem Finds.bind {P : Table → α → Prop} {Q : Table → β → Prop} {v : Table → α → γ}
    {w : Table → β → δ} {m : Lowering α} {f : α → Lowering β} {c : Except (Stop FormulaError) γ}
    {g : γ → Except (Stop FormulaError) δ} (hm : Finds P v (m t) c) (hgrows : Grows m)
    (hf : ∀ x t₁, t.Interns t₁ → t₁.Grounded → P t₁ x → Finds Q w (f x t₁) (g (v t₁ x))) :
    Finds Q w ((m >>= f) t) (c >>= g) := by
  have hgrown := hgrows t
  obtain ⟨hm, hleft⟩ := hm
  show Finds Q w (EStateM.bind m f t) (Except.bind c g)
  unfold EStateM.bind Except.bind
  cases hr : m t with
  | ok x t₁ =>
    rw [hr] at hm hgrown
    obtain ⟨hground, hx⟩ := hleft x t₁ hr
    cases c with
    | ok y =>
      obtain rfl := hm
      exact hf x t₁ hgrown hground hx
    | error e => exact hm.elim
  | error e t₁ =>
    rw [hr] at hm
    cases c with
    | ok y => exact hm.elim
    | error e' => exact ⟨hm, nofun⟩

/-- A step that gives what is there already. -/
theorem finds_pure {P : Table → α → Prop} {v : Table → α → γ} {x : α} (h : t.Grounded)
    (hx : P t x) :
    Finds P v ((pure x : Lowering α) t) (.ok (v t x)) :=
  ⟨rfl, fun _ _ he => by cases he; exact ⟨h, hx⟩⟩

theorem finds_build {f : Table → Nat × Table} {tree : Tree} (hr : Table.Roots (f t))
    (htree : Table.treeOf (f t) = tree) : Finds Table.Rooted Table.tree (build f t) (.ok tree) :=
  ⟨htree, fun _ _ he => by cases he; exact ⟨hr.grounded, hr.rooted⟩⟩

/-- `Finds.bind` for a builder. -/
theorem finds_build_bind {f : Table → Nat × Table} {g : Nat → Lowering β} {tree : Tree}
    {Q : Table → β → Prop} {w : Table → β → δ} {c : Tree → Except (Stop FormulaError) δ}
    (hr : Table.Roots (f t)) (htree : Table.treeOf (f t) = tree)
    (hf : ∀ t : Table, t.Interns (f t).2)
    (hg : ∀ id t₁, t.Interns t₁ → t₁.Grounded → t₁.Rooted id →
      Finds Q w (g id t₁) (c (t₁.tree id))) :
    Finds Q w ((build f >>= g) t) (c tree) :=
  Finds.bind (c := .ok tree) (g := c) (finds_build hr htree) (grows_build hf) hg

/-- A name that is no constant is a symbol. -/
theorem symbol_of_ne {name : String} (hpi : name ≠ "pi") (hexp1 : name ≠ "E")
    (hzoo : name ≠ "zoo") :
    symbol name = build (·.symbol name) := by
  unfold symbol
  split
  · exact absurd rfl hpi
  · exact absurd rfl hexp1
  · exact absurd rfl hzoo
  · rfl

theorem finds_symbol (h : t.Grounded) (name : String) :
    Finds Table.Rooted Table.tree (symbol name t) (.ok (.name name)) := by
  have hliteral (value : Literal) :
      Finds Table.Rooted Table.tree (build (·.literal value) t) (.ok (.literal value)) :=
    finds_build (h.literal value) (Table.treeOf_literal h.ordered h.indexed value)
  by_cases hpi : name = "pi"
  · subst hpi
    exact hliteral _
  by_cases hexp1 : name = "E"
  · subst hexp1
    exact hliteral _
  by_cases hzoo : name = "zoo"
  · subst hzoo
    exact hliteral _
  rw [symbol_of_ne hpi hexp1 hzoo, Tree.name_of_ne hpi hexp1 hzoo]
  exact finds_build (h.symbol name) (Table.treeOf_symbol h.ordered h.indexed name)

theorem finds_remainder (h : t.Grounded) (ha : t.Rooted a) (hb : t.Rooted b) :
    Finds Table.Rooted Table.tree (remainder a b span t)
      (Tree.remainder (t.tree a) (t.tree b) span) := by
  unfold remainder Tree.remainder
  rw [← Table.treeOf_remainder? h.ordered h.indexed ha.lt hb.lt]
  cases hr : t.remainder? a b with
  | none => exact ⟨rfl, nofun⟩
  | some result =>
    have hroots := h.remainder ha hb hr
    exact ⟨rfl, fun _ _ he => by cases he; exact ⟨hroots.grounded, hroots.rooted⟩⟩

theorem finds_power (h : t.Grounded) (ha : t.Rooted a) (hb : t.Rooted b) :
    Finds Table.Rooted Table.tree (power a b t)
      ((Tree.power (t.tree a) (t.tree b)).mapError .overflow) := by
  unfold power
  rw [← Table.treeOf_power h.ordered h.indexed ha.lt hb.lt]
  cases hr : t.power a b with
  | error overflow => exact ⟨rfl, nofun⟩
  | ok result =>
    have hroots := h.power ha hb hr
    exact ⟨rfl, fun _ _ he => by cases he; exact ⟨hroots.grounded, hroots.rooted⟩⟩

theorem finds_reciprocal (h : t.Grounded) (ha : t.Rooted a) :
    Finds Table.Rooted Table.tree (reciprocal a t)
      ((t.tree a).reciprocal.mapError .overflow) := by
  refine finds_build_bind
    (c := fun exponent => (Tree.power (t.tree a) exponent).mapError .overflow) (h.number _)
    (Table.treeOf_number h.ordered h.indexed _) (fun t => t.interns_intern _)
    fun minusOne t₁ hi h₁ hone => ?_
  rw [← hi.extends.tree_eq h.ordered ha.lt]
  exact finds_power h₁ (ha.interns hi) hone

theorem finds_product (h : t.Grounded) (ha : t.Rooted a) (hb : t.Rooted b) :
    Finds Table.Rooted Table.tree (build (·.product [a, b]) t)
      (.ok (Tree.product [t.tree a, t.tree b])) :=
  finds_build (h.product (Table.rooted_pair ha hb))
    (Table.treeOf_product h.ordered h.indexed (holds_pair ha.lt hb.lt))

theorem finds_sum (h : t.Grounded) (ha : t.Rooted a) (hb : t.Rooted b) :
    Finds Table.Rooted Table.tree (build (·.sum [a, b]) t) (.ok (.sum [t.tree a, t.tree b])) :=
  finds_build (h.sum (Table.rooted_pair ha hb))
    (Table.treeOf_sum h.ordered h.indexed (holds_pair ha.lt hb.lt))

theorem finds_binary (op : BinaryOp) (h : t.Grounded) (ha : t.Rooted a) (hb : t.Rooted b) :
    Finds Table.Rooted Table.tree (binary op a b span t)
      (Tree.binary op (t.tree a) (t.tree b) span) := by
  cases op with
  | add => exact finds_sum h ha hb
  | subtract =>
    refine finds_build_bind (c := fun right => .ok (Tree.sum [t.tree a, right])) (h.negate hb)
      (Table.treeOf_negate h.ordered h.indexed hb.lt) (fun t => t.interns_negate b)
      fun b' t₁ hi h₁ hb' => ?_
    rw [← hi.extends.tree_eq h.ordered ha.lt]
    exact finds_sum h₁ (ha.interns hi) hb'
  | multiply => exact finds_product h ha hb
  | divide =>
    refine (finds_reciprocal h hb).bind (g := fun right => .ok (Tree.product [t.tree a, right]))
      (grows_reciprocal b) fun b' t₁ hi h₁ hb' => ?_
    rw [← hi.extends.tree_eq h.ordered ha.lt]
    exact finds_product h₁ (ha.interns hi) hb'
  | modulo => exact finds_remainder h ha hb
  | power => exact finds_power h ha hb

theorem finds_operation {op : Operator} {args : List Nat} (h : t.Grounded)
    (hargs : ∀ id ∈ args, t.Rooted id) :
    Finds Table.Rooted Table.tree (build (·.operation op args) t)
      (.ok (.operation op (args.map t.tree))) :=
  finds_build (f := (·.operation op args)) (h.operation op hargs)
    (Table.treeOf_operation h.ordered h.indexed fun id hid => (hargs id hid).lt)

theorem finds_log {x base : Nat} (h : t.Grounded) (hx : t.Rooted x) (hbase : t.Rooted base) :
    Finds Table.Rooted Table.tree (call .log [x, base] span t)
      (Tree.call .log [t.tree x, t.tree base] span) := by
  refine Finds.bind (v := Table.tree) (c := .ok (.operation .log [t.tree x]))
    (g := fun above => do
      let below ← (Tree.operation .log [t.tree base]).reciprocal.mapError .overflow
      return Tree.product [above, below])
    (finds_operation h (List.forall_mem_singleton.mpr hx)) (grows_build fun t => t.interns_intern _)
    fun above t₁ hi₁ h₁ habove => ?_
  have hbase₁ := hbase.interns hi₁
  rw [← hi₁.extends.tree_eq h.ordered hbase.lt]
  refine Finds.bind (v := Table.tree) (c := .ok (.operation .log [t₁.tree base]))
    (g := fun below => do
      let below ← below.reciprocal.mapError .overflow
      return Tree.product [t₁.tree above, below])
    (finds_operation h₁ (List.forall_mem_singleton.mpr hbase₁))
    (grows_build fun t => t.interns_intern _) fun below t₂ hi₂ h₂ hbelow => ?_
  rw [← hi₂.extends.tree_eq h₁.ordered habove.lt]
  have habove₂ := habove.interns hi₂
  refine (finds_reciprocal h₂ hbelow).bind
    (g := fun inverse => .ok (Tree.product [t₂.tree above, inverse])) (grows_reciprocal below)
    fun inverse t₃ hi₃ h₃ hinverse => ?_
  rw [← hi₃.extends.tree_eq h₂.ordered habove₂.lt]
  exact finds_product h₃ (habove₂.interns hi₃) hinverse

theorem finds_call {op : Operator} {args : List Nat} (h : t.Grounded)
    (hargs : ∀ id ∈ args, t.Rooted id) :
    Finds Table.Rooted Table.tree (call op args span t) (Tree.call op (treesIn t args) span) := by
  unfold call
  split
  · exact finds_log h (hargs _ (by simp)) (hargs _ (by simp))
  · exact finds_pure h (hargs _ (by simp))
  · exact finds_pure h (hargs _ (by simp))
  · exact finds_remainder h (hargs _ (by simp)) (hargs _ (by simp))
  · rename_i hlog hmin hmax hmod
    have hlength : (treesIn t args).length = args.length := List.length_map _
    rw [Tree.call_of_length]
    · exact finds_operation h hargs
    · intro hop hlen
      obtain ⟨x, base, rfl⟩ := List.length_eq_two.mp (hlength ▸ hlen)
      exact hlog x base hop rfl
    · intro hop hlen
      obtain ⟨x, rfl⟩ := List.length_eq_one_iff.mp (hlength ▸ hlen)
      exact hop.elim (fun hop => hmin x hop rfl) (fun hop => hmax x hop rfl)
    · intro hop hlen
      obtain ⟨x, y, rfl⟩ := List.length_eq_two.mp (hlength ▸ hlen)
      exact hmod x y hop rfl

end Lowering

namespace Formula

open Lowering (Finds treesIn)

mutual
/-- **Lowering gives the tree of the formula**, or its error, **and a rooted id.** -/
theorem lower_finds : ∀ (f : Formula) {t : Table}, t.Grounded →
    Finds Table.Rooted Table.tree (f.lower t) f.expression
  | integer value _, _, h =>
      Lowering.finds_build (h.number _) (Table.treeOf_number h.ordered h.indexed _)
  | float value _, _, h =>
      Lowering.finds_build (h.literal _) (Table.treeOf_literal h.ordered h.indexed _)
  | symbol name _, _, h => Lowering.finds_symbol h name
  | binary op left right span, _, h => by
      refine (lower_finds left h).bind left.grows_lower fun a t₁ _ h₁ ha => ?_
      refine (lower_finds right h₁).bind right.grows_lower fun b t₂ hi h₂ hb => ?_
      rw [← hi.extends.tree_eq h₁.ordered ha.lt]
      exact Lowering.finds_binary op h₂ (ha.interns hi) hb
  | negative operand _, _, h => by
      refine (lower_finds operand h).bind operand.grows_lower fun a t₁ _ h₁ ha => ?_
      exact Lowering.finds_build (h₁.negate ha) (Table.treeOf_negate h₁.ordered h₁.indexed ha.lt)
  | call name arguments span, t, h => by
      show Finds Table.Rooted Table.tree ((if (Operator.ofCall name).2.accepts arguments.length then
          lowerAll arguments >>= fun args => Lowering.call (Operator.ofCall name).1 args span
          else throw (.refused (.wrongArity name (Operator.ofCall name).2 arguments.length span)) :
          Lowering Nat) t)
        (if (Operator.ofCall name).2.accepts arguments.length then
          expressions arguments >>= fun args => Tree.call (Operator.ofCall name).1 args span
          else .error (.refused (.wrongArity name (Operator.ofCall name).2 arguments.length span)))
      split
      · refine (lowerAll_finds arguments h).bind (grows_lowerAll arguments)
          fun args t₁ _ h₁ hargs => ?_
        exact Lowering.finds_call h₁ hargs
      · exact ⟨rfl, nofun⟩
  | group inner _, _, h => lower_finds inner h

theorem lowerAll_finds : ∀ (fs : List Formula) {t : Table}, t.Grounded →
    Finds (fun t ids => ∀ id ∈ ids, t.Rooted id) treesIn (lowerAll fs t) (expressions fs)
  | [], _, h => Lowering.finds_pure h nofun
  | f :: fs, _, h => by
      refine (lower_finds f h).bind f.grows_lower fun a t₁ _ h₁ ha => ?_
      refine (lowerAll_finds fs h₁).bind (grows_lowerAll fs) fun as t₂ hi h₂ has => ?_
      rw [← hi.extends.tree_eq h₁.ordered ha.lt]
      exact Lowering.finds_pure h₂ (List.forall_mem_cons.mpr ⟨ha.interns hi, has⟩)
end

end Formula

/-- The tree of a text, or why it has none. -/
def expressionOf (cs : List Char) : Except (Stop FormulaError) Tree :=
  (Formula.parse cs).mapError .refused >>= Formula.expression

/-- **Reading a text gives its tree, whatever was read before.** -/
theorem Table.read_computes (h : t.Normal) (cs : List Char) :
    Lowering.Computes Table.tree (Table.read cs t) (expressionOf cs) := by
  unfold Table.read expressionOf
  cases Formula.parse cs with
  | ok f => exact (f.lower_finds h.grounded).1
  | error e => rfl

end FormulaGraph
