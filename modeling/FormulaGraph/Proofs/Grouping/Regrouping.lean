/-
  File:      FormulaGraph/Proofs/Grouping/Regrouping.lean
  Subject:   The grouping of a sum or a product does not matter.

  Two groupings of the same operands go through different nodes: other numbers meet first, other
  partial sums collapse. They are not compared with each other, but with what the operands are told
  by, joined from the right. Every grouping is lowered to a node with these parts, if no double
  arises; so two groupings have the same tree, and rooted ids with the same tree are equal.

  * `Formula.expression_of_shape` -- it does not matter where an operand stands in the text;
  * `Normal.isFlat` -- the trees of a table in normal form are flat;
  * `Grouping` -- the formulas that join operands in a given order;
  * `Fold.lowers_operand`, `Fold.Lowered.binary` -- an operand, and a step;
  * `Grouping.lowers` -- every grouping;
  * `lower_regrouped` -- two groupings are lowered to the same id.
-/
import FormulaGraph.Proofs.Grammar.Basic
import FormulaGraph.Proofs.Grouping.Parts
import FormulaGraph.Proofs.History.Lowering

namespace FormulaGraph

/-! ## 1. Where operands stand -/

namespace Shape

mutual
/-- A formula of the shape, with all its parts at one place. -/
def formula : Shape → Formula
  | integer value => .integer value ⟨0, 0⟩
  | float value => .float value ⟨0, 0⟩
  | symbol name => .symbol name ⟨0, 0⟩
  | binary op left right => .binary op left.formula right.formula ⟨0, 0⟩
  | negative operand => .negative operand.formula ⟨0, 0⟩
  | call name arguments => .call name (formulaAll arguments) ⟨0, 0⟩
  | group inner => .group inner.formula ⟨0, 0⟩

def formulaAll : List Shape → List Formula
  | [] => []
  | s :: ss => s.formula :: formulaAll ss
end

theorem length_formulaAll (fs : List Formula) :
    (formulaAll (Formula.shapeAll fs)).length = fs.length := by
  induction fs with
  | nil => rfl
  | cons f fs ih => exact congrArg (· + 1) ih

end Shape

namespace Tree

variable {a b tree : Tree}

/-- Only the cause of a failure tells where an operator stands. -/
theorem remainder_ok_iff (s s' : Span) :
    remainder a b s = .ok tree ↔ remainder a b s' = .ok tree := by
  unfold remainder
  cases remainder? a b with
  | some c => exact Iff.rfl
  | none => exact ⟨nofun, nofun⟩

theorem binary_ok_iff (s s' : Span) {op : BinaryOp} :
    binary op a b s = .ok tree ↔ binary op a b s' = .ok tree := by
  cases op with
  | modulo => exact remainder_ok_iff s s'
  | _ => exact Iff.rfl

theorem call_ok_iff (s s' : Span) {op : Operator} {args : List Tree} :
    call op args s = .ok tree ↔ call op args s' = .ok tree := by
  unfold call
  split
  · exact Iff.rfl
  · exact Iff.rfl
  · exact Iff.rfl
  · exact remainder_ok_iff s s'
  · exact Iff.rfl

end Tree

namespace Formula

mutual
/-- **What a formula is lowered to is told by its shape.** -/
theorem expression_ok_iff : ∀ (f : Formula) {tree : Tree},
    f.expression = .ok tree ↔ f.shape.formula.expression = .ok tree
  | integer _ _, _ => Iff.rfl
  | float _ _, _ => Iff.rfl
  | symbol _ _, _ => Iff.rfl
  | binary op left right span, tree => by
      show (left.expression >>= fun a => right.expression >>= fun b =>
          Tree.binary op a b span) = _ ↔
        (left.shape.formula.expression >>= fun a => right.shape.formula.expression >>= fun b =>
          Tree.binary op a b ⟨0, 0⟩) = _
      simp only [bind_ok_iff, expression_ok_iff left, expression_ok_iff right,
        Tree.binary_ok_iff span ⟨0, 0⟩]
  | negative operand span, tree => by
      show (operand.expression >>= fun a => .ok a.negate) = _ ↔
        (operand.shape.formula.expression >>= fun a => .ok a.negate) = _
      simp only [bind_ok_iff, expression_ok_iff operand]
  | call name arguments span, tree => by
      show (if (Operator.ofCall name).2.accepts arguments.length then
          expressions arguments >>= fun args => Tree.call (Operator.ofCall name).1 args span
          else .error _) = _ ↔
        (if (Operator.ofCall name).2.accepts (Shape.formulaAll (shapeAll arguments)).length then
          expressions (Shape.formulaAll (shapeAll arguments)) >>= fun args =>
            Tree.call (Operator.ofCall name).1 args ⟨0, 0⟩
          else .error _) = _
      rw [Shape.length_formulaAll]
      split
      · simp only [bind_ok_iff, expressions_ok_iff arguments, Tree.call_ok_iff span ⟨0, 0⟩]
      · exact ⟨nofun, nofun⟩
  | group inner _, _ => expression_ok_iff inner

theorem expressions_ok_iff : ∀ (fs : List Formula) {trees : List Tree},
    expressions fs = .ok trees ↔ expressions (Shape.formulaAll (shapeAll fs)) = .ok trees
  | [], _ => Iff.rfl
  | f :: fs, trees => by
      show (f.expression >>= fun a => expressions fs >>= fun as => .ok (a :: as)) = _ ↔
        (f.shape.formula.expression >>= fun a =>
          expressions (Shape.formulaAll (shapeAll fs)) >>= fun as => .ok (a :: as)) = _
      simp only [bind_ok_iff, expression_ok_iff f, expressions_ok_iff fs]
end

theorem expression_of_shape {f g : Formula} {tree : Tree} (hs : g.shape = f.shape)
    (h : f.expression = .ok tree) : g.expression = .ok tree := by
  rw [expression_ok_iff, hs]
  exact f.expression_ok_iff.mp h

end Formula

/-! ## 2. Operands are flat -/

theorem Fold.accepts_arity {c : Fold} {n : Nat} (h : c.op.nodeArity.accepts n = true) : 2 ≤ n := by
  cases c with
  | sum => exact of_decide_eq_true h
  | product => exact of_decide_eq_true h

namespace Table

variable {t : Table} {id : Nat} {op : Operator}

/-- **The trees of a table in normal form are flat.** -/
theorem Normal.isFlat (h : t.Normal) (hlt : id < t.size) (c : Fold) : c.IsFlat (t.tree id) := by
  intro trees htree
  obtain ⟨node, hn⟩ := exists_node hlt
  rw [h.ordered.tree_eq hn] at htree
  cases node with
  | symbol name => cases htree
  | literal value => cases htree
  | operation op args =>
    obtain ⟨rfl, rfl⟩ := Tree.operation.inj htree
    have hnormal : t.NormalOperation c.op args := h.nodes id _ hn
    obtain ⟨hnested, hfinite, hothers, hcoefficient⟩ := hnormal.flat c.op_cases
    have hargs : ∀ arg ∈ args, arg < t.size := h.args_lt hn
    refine ⟨?_, List.forall_mem_map.mpr fun arg ha => ?_, List.forall_mem_map.mpr fun arg ha => ?_,
      ?_, List.forall_mem_map.mpr fun arg ha n hnum => ?_⟩
    · rw [List.length_map]
      exact Fold.accepts_arity hnormal.arity
    · rw [h.ordered.isComplexInfinity_tree (hargs arg ha)]
      exact hfinite arg ha
    · rw [h.ordered.operands_tree (hargs arg ha), operands_of_not_nested (hnested arg ha)]
      rfl
    · rw [← List.map_tail]
      refine List.forall_mem_map.mpr fun arg ha => ?_
      rw [h.ordered.numeric?_tree (hargs arg (List.mem_of_mem_tail ha))]
      exact hothers arg ha
    · rw [h.ordered.numeric?_tree (hargs arg ha)] at hnum
      exact hcoefficient arg ha n hnum

end Table

/-- What a formula is lowered to is flat: in the empty table it is the tree of an id in normal
    form. -/
theorem Formula.isFlat_expression {f : Formula} {tree : Tree} (h : f.expression = .ok tree)
    (c : Fold) : c.IsFlat tree := by
  have hfinds := f.lower_finds Table.normal_empty.grounded
  rw [h] at hfinds
  obtain ⟨id, t, hr, _, hrooted, rfl⟩ := hfinds.exists_ok
  have hleaves := f.lower_leaves Table.normal_empty
  rw [hr] at hleaves
  exact hleaves.1.isFlat hrooted.lt c

theorem Formula.expression_of_lower {f : Formula} {t t₁ : Table} {id : Nat} (h : t.Grounded)
    (hr : f.lower t = .ok id t₁) : ∃ tree, f.expression = .ok tree := by
  have hcomputes := (f.lower_finds h).1
  rw [hr] at hcomputes
  cases he : f.expression with
  | ok tree => exact ⟨tree, rfl⟩
  | error e =>
    rw [he] at hcomputes
    exact hcomputes.elim

/-! ## 3. Lowering to parts -/

namespace Fold

variable {c : Fold} {t t₁ t₂ : Table} {a b : Nat} {P Q : Parts}

/-- The operator of a sum or a product in a formula. -/
def binaryOp : Fold → BinaryOp
  | sum => .add
  | product => .multiply

/-- What lowering leaves: a rooted id, whose tree has the parts if no double is in the table. -/
structure Lowered (c : Fold) (t : Table) (P : Parts) (a : Nat) (t₁ : Table) : Prop where
  interns : t.Interns t₁
  grounded : t₁.Grounded
  rooted : t₁.Rooted a
  hasParts : t₁.isFloatFree = true → c.HasParts (t₁.tree a) P

/-- A formula is lowered, to a node with the parts if no double arises. -/
def Lowers (c : Fold) (t : Table) (P : Parts) (f : Formula) : Prop :=
  ∃ a t₁, f.lower t = .ok a t₁ ∧ c.Lowered t P a t₁

/-- The parts of what a formula is lowered to. -/
def partsIn (c : Fold) (f : Formula) : Parts :=
  match f.expression with
  | .ok tree => c.partsOf tree
  | .error _ => .infinite

theorem Lowered.hasParts_later (h : c.Lowered t P a t₁) (hi : t₁.Interns t₂)
    (hfloat : t₂.isFloatFree = true) : c.HasParts (t₂.tree a) P := by
  rw [hi.extends.tree_eq h.grounded.ordered h.rooted.lt]
  exact h.hasParts (hi.extends.isFloatFree hfloat)

/-- **An operand is lowered to its parts.** -/
theorem lowers_operand (c : Fold) {e f : Formula} {tree : Tree} (h : t.Grounded)
    (hs : f.shape = e.shape) (hw : e.hasWords = true) (he : e.expression = .ok tree) :
    c.Lowers t (c.mergeAll [c.partsIn e]) f := by
  have hfinds := f.lower_finds h
  rw [Formula.expression_of_shape hs he] at hfinds
  obtain ⟨a, t₁, hr, hground, hrooted, rfl⟩ := hfinds.exists_ok
  refine ⟨a, t₁, hr, f.grows_lower.interns hr, hground, hrooted, fun hfloat => ?_⟩
  have hhas : c.HasParts (t₁.tree a) (c.partsOf (t₁.tree a)) :=
    hasParts_partsOf (Formula.isFlat_expression he c) (Formula.wellFormed_expression e hw he)
      (Table.only_isExact hground.ordered hfloat hrooted.lt)
  rw [partsIn, he, mergeAll_singleton hhas.valid]
  exact hhas

/-- **Two nodes are joined to a node with the joined parts.** -/
theorem Lowered.binary (ha : c.Lowered t P a t₁) (hb : c.Lowered t₁ Q b t₂) (span : Span) :
    ∃ id t₃, Lowering.binary c.binaryOp a b span t₂ = .ok id t₃ ∧
      c.Lowered t (c.merge P Q) id t₃ := by
  have htree : Tree.binary c.binaryOp (t₂.tree a) (t₂.tree b) span =
      .ok (c.build [t₂.tree a, t₂.tree b]) := by cases c <;> rfl
  have hfinds : Lowering.Finds Table.Rooted Table.tree (Lowering.binary c.binaryOp a b span t₂) _ :=
    Lowering.finds_binary c.binaryOp hb.grounded (ha.rooted.interns hb.interns) hb.rooted
  rw [htree] at hfinds
  obtain ⟨id, t₃, hr, hground, hrooted, hbuild⟩ := hfinds.exists_ok
  have hi : t₂.Interns t₃ := (Lowering.grows_binary c.binaryOp a b).interns hr
  refine ⟨id, t₃, hr, (ha.interns.trans hb.interns).trans hi, hground, hrooted, fun hfloat => ?_⟩
  have hexact := Table.only_isExact hground.ordered hfloat hrooted.lt
  -- No double is there at the end, so none was there when the two were joined.
  have hbefore := hi.extends.isFloatFree hfloat
  rw [hbuild] at hexact ⊢
  exact (ha.hasParts_later hb.interns hbefore).build (hb.hasParts hbefore) hexact

end Fold

/-! ## 4. Groupings -/

/-- The formulas that join operands by an operator in the order given, however they are grouped, and
    wherever the operands stand. -/
inductive Grouping (op : BinaryOp) : List Formula → Formula → Prop where
  | single (e : Formula) {f : Formula} (h : f.shape = e.shape) : Grouping op [e] f
  | group {es : List Formula} {f : Formula} (h : Grouping op es f) (span : Span) :
      Grouping op es (.group f span)
  | binary {es es' : List Formula} {f g : Formula} (hf : Grouping op es f) (hg : Grouping op es' g)
      (span : Span) : Grouping op (es ++ es') (.binary op f g span)

/-- **Every grouping is lowered to the parts of its operands, joined.** -/
theorem Grouping.lowers {c : Fold} {es : List Formula} {f : Formula} (hf : Grouping c.binaryOp es f)
    (hes : ∀ e ∈ es, e.hasWords = true ∧ ∃ tree, e.expression = .ok tree) {t : Table}
    (h : t.Grounded) : c.Lowers t (c.mergeAll (es.map c.partsIn)) f := by
  -- The right part is lowered in the table that the left part has left, so the table is not fixed.
  induction hf generalizing t with
  | single e hs =>
    obtain ⟨hw, tree, he⟩ := hes e (List.mem_singleton_self e)
    exact c.lowers_operand h hs hw he
  | group _ span ih => exact ih hes h
  | @binary es es' f g _ _ span ihf ihg =>
    obtain ⟨hesl, hesr⟩ := List.forall_mem_append.mp hes
    obtain ⟨a, t₁, hfl, ha⟩ := ihf hesl h
    obtain ⟨b, t₂, hgl, hb⟩ := ihg hesr ha.grounded
    obtain ⟨id, t₃, hr, hid⟩ := ha.binary hb span
    rw [List.map_append, c.mergeAll_append]
    exact ⟨id, t₃, bindM_ok_iff.mpr ⟨a, t₁, hfl, bindM_ok_iff.mpr ⟨b, t₂, hgl, hr⟩⟩, hid⟩

/-- **The grouping of a sum or a product does not matter.** Operands that can be lowered are lowered
    in every grouping, and two groupings to the same id, if no double is in the table after both. -/
theorem lower_regrouped (c : Fold) {es : List Formula} {f g : Formula}
    (hf : Grouping c.binaryOp es f) (hg : Grouping c.binaryOp es g) {t : Table} (ht : t.Built)
    (hw : ∀ e ∈ es, e.hasWords = true) (hes : ∀ e ∈ es, ∃ id t', e.lower t = .ok id t') :
    ∃ a t₁ b t₂, f.lower t = .ok a t₁ ∧ g.lower t₁ = .ok b t₂ ∧
      (t₂.isFloatFree = true → a = b) := by
  have hall : ∀ e ∈ es, e.hasWords = true ∧ ∃ tree, e.expression = .ok tree := fun e he => by
    obtain ⟨id, t', hr⟩ := hes e he
    exact ⟨hw e he, Formula.expression_of_lower ht.grounded hr⟩
  obtain ⟨a, t₁, hfl, ha⟩ := hf.lowers hall ht.grounded
  obtain ⟨b, t₂, hgl, hb⟩ := hg.lowers hall ha.grounded
  refine ⟨a, t₁, b, t₂, hfl, hgl, fun hfloat => ?_⟩
  have htree : t₂.tree a = t₂.tree b :=
    (ha.hasParts_later hb.interns hfloat).eq_tree.trans (hb.hasParts hfloat).eq_tree.symm
  exact (ha.rooted.interns hb.interns).eq_of_tree_eq hb.grounded.ordered hb.rooted htree

/-- The formulas `(x+1)+(y+-1)` and `x+((1+y)+-1)`. The numbers cancel at the last sum in the first,
    and leave `y` alone in the second. The table holds an `x` that was pushed and never interned. -/
theorem lower_regrouped_cancelling :
    let x : Formula := .symbol "x" ⟨0, 1⟩
    let one : Formula := .integer 1 ⟨2, 3⟩
    let y : Formula := .symbol "y" ⟨4, 5⟩
    let minus : Formula := .negative (.integer 1 ⟨7, 8⟩) ⟨6, 8⟩
    let es := [x, one, y, minus]
    let f : Formula :=
      .binary .add (.group (.binary .add (.symbol "x" ⟨1, 2⟩) (.integer 1 ⟨3, 4⟩) ⟨1, 4⟩) ⟨0, 5⟩)
        (.group
          (.binary .add (.symbol "y" ⟨7, 8⟩) (.negative (.integer 1 ⟨10, 11⟩) ⟨9, 11⟩) ⟨7, 11⟩)
          ⟨6, 12⟩) ⟨0, 12⟩
    let g : Formula :=
      .binary .add (.symbol "x" ⟨0, 1⟩)
        (.group (.binary .add
          (.group (.binary .add (.integer 1 ⟨4, 5⟩) (.symbol "y" ⟨6, 7⟩) ⟨4, 7⟩) ⟨3, 8⟩)
          (.negative (.integer 1 ⟨10, 11⟩) ⟨9, 11⟩) ⟨3, 11⟩) ⟨2, 12⟩) ⟨0, 12⟩
    let t := (Table.empty.push (.symbol "x")).2
    t.Built ∧ Grouping .add es f ∧ Grouping .add es g ∧ (∀ e ∈ es, e.hasWords = true) ∧
      (∀ e ∈ es, ∃ id t', e.lower t = .ok id t') ∧
      ∃ a t₁ t₂, f.lower t = .ok a t₁ ∧ g.lower t₁ = .ok a t₂ ∧ t₂.isFloatFree = true := by
  intro x one y minus es f g t
  have ht : t.Built := .push .empty (show Table.empty.push? (.symbol "x") = some _ from rfl)
  have hf : Grouping .add (([x] ++ [one]) ++ ([y] ++ [minus])) f := by
    refine .binary (.group (.binary (.single x ?_) (.single one ?_) _) _)
      (.group (.binary (.single y ?_) (.single minus ?_) _) _) _ <;> rfl
  have hg : Grouping .add ([x] ++ (([one] ++ [y]) ++ [minus])) g := by
    refine .binary (.single x ?_) (.group (.binary
      (.group (.binary (.single one ?_) (.single y ?_) _) _) (.single minus ?_) _) _) _ <;> rfl
  have hw : ∀ e ∈ es, e.hasWords = true := by decide
  have hes : ∀ e ∈ es, ∃ id t', e.lower t = .ok id t' := by
    simp only [es, List.forall_mem_cons]
    exact ⟨⟨_, _, rfl⟩, ⟨_, _, rfl⟩, ⟨_, _, rfl⟩, ⟨_, _, rfl⟩, nofun⟩
  obtain ⟨a, t₁, b, t₂, hfl, hgl, hab⟩ := lower_regrouped .sum hf hg ht hw hes
  have hfree : (stateOf (g.lower (stateOf (f.lower t)))).isFloatFree = true := by decide +kernel
  rw [hfl] at hfree
  have hfree : (stateOf (g.lower t₁)).isFloatFree = true := hfree
  rw [hgl] at hfree
  obtain rfl : a = b := hab hfree
  exact ⟨ht, hf, hg, hw, hes, a, t₁, t₂, hfl, hgl, hfree⟩

end FormulaGraph
