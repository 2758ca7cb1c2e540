/-
  File:      FormulaGraph/Proofs/Table/Order.lean
  Subject:   The order in which a walk meets the nodes.

  Unfolding a node into a tree forgets sharing. Listing that tree from the root down, arguments from
  left to right, names a shared node at every place where it stands. The walk, which turns back at a
  node it has met, gives the first occurrences in that list.

  * `unfolding` -- the ids of the unfolded tree, each before what is below it;
  * `mem_unfoldingTo_iff` -- they are the ids below the root;
  * `preorder_eq_eraseDups` -- the walk meets them in the order of their first occurrences.
-/
import FormulaGraph.Proofs.Table.Reach

namespace FormulaGraph

namespace Table

variable {t : Table}

/-! ## 1. The unfolded tree -/

/-- The ids of the tree of `id`, cut off below `levels` levels: an id, then what is below its
    arguments, from left to right. -/
def unfoldingTo (t : Table) : (levels id : Nat) → List Nat
  | 0, _ => []
  | levels + 1, id => id :: (t.args id).flatMap fun arg => t.unfoldingTo levels arg

/-- The ids of the tree that `root` stands for. -/
def unfolding (t : Table) (root : Nat) : List Nat := t.unfoldingTo (root + 1) root

/-- **The unfolded tree names what is below its root.** -/
theorem mem_unfoldingTo_iff (ht : t.Ordered) {levels id other : Nat} (hl : id < levels) :
    other ∈ t.unfoldingTo levels id ↔ t.Below id other := by
  induction levels generalizing id with
  | zero => exact absurd hl (Nat.not_lt_zero _)
  | succ levels ih =>
    rw [unfoldingTo, List.mem_cons, List.mem_flatMap]
    constructor
    · rintro (rfl | ⟨arg, ha, hm⟩)
      · exact .root
      · have hlt := ht.args_lt ha
        exact (Below.root.arg ha).trans ((ih (by omega)).mp hm)
    · intro hb
      rcases hb.eq_or_arg with rfl | ⟨arg, ha, hb⟩
      · exact .inl rfl
      · have hlt := ht.args_lt ha
        exact .inr ⟨arg, ha, (ih (by omega)).mpr hb⟩

/-! ## 2. The walk -/

/-- Everything below the members that lie under a bound is among the members. The nodes that a walk
    has not finished with are those on the way to where it stands, and they lie above. -/
def ClosedUnder (t : Table) (bound : Nat) (ids : List Nat) : Prop :=
  ∀ id ∈ ids, id < bound → ∀ other, t.Below id other → other ∈ ids

/-- **A visit adds the first occurrences in the unfolded tree.** -/
theorem visit_order (ht : t.Ordered) : ∀ (levels : Nat) {v : Visited} {id bound : Nat},
    v.Consistent → id < levels → id < bound → t.ClosedUnder bound v.order →
    (t.visit levels v id).order.reverse = (v.order.reverse ++ t.unfoldingTo levels id).eraseDups
  | 0, _, _, _, _, hl, _, _ => absurd hl (Nat.not_lt_zero _)
  | levels + 1, v, id, bound, hv, hl, hb, hc => by
      have hfold : ∀ (args : List Nat) (v : Visited), (∀ arg ∈ args, arg < levels ∧ arg < id) →
          v.Consistent → t.ClosedUnder id v.order →
          (args.foldl (fun v arg => t.visit levels v arg) v).order.reverse =
            (v.order.reverse ++ args.flatMap fun arg => t.unfoldingTo levels arg).eraseDups := by
        intro args
        induction args with
        | nil =>
          intro v _ hv _
          rw [List.flatMap_nil, List.append_nil,
            eraseDups_of_nodup (List.nodup_reverse.mpr hv.nodup)]
          rfl
        | cons arg args ih =>
          intro v hlt hv hc
          obtain ⟨hlevels, hid⟩ := hlt arg List.mem_cons_self
          have horder := visit_order ht levels hv hlevels hid hc
          have hmem : ∀ other, other ∈ (t.visit levels v arg).order ↔
              other ∈ v.order ∨ t.Below arg other := by
            intro other
            rw [← List.mem_reverse, horder, List.mem_eraseDups, List.mem_append, List.mem_reverse,
              mem_unfoldingTo_iff ht hlevels]
          -- what the visit has added is finished with
          have hclosed : t.ClosedUnder id (t.visit levels v arg).order := by
            intro other ho hlt below hbelow
            refine (hmem below).mpr ?_
            rcases (hmem other).mp ho with ho | ho
            · exact .inl (hc other ho hlt below hbelow)
            · exact .inr (ho.trans hbelow)
          rw [List.foldl_cons, ih _ (fun a ha => hlt a (List.mem_cons_of_mem _ ha))
            (visit_walked ht levels hv hlevels).consistent hclosed, horder,
            eraseDups_eraseDups_append, List.append_assoc, List.flatMap_cons]
      unfold visit
      split
      · rename_i hs
        have hm := (hv.seen id).mp hs
        rw [eraseDups_append_of_subset, eraseDups_of_nodup (List.nodup_reverse.mpr hv.nodup)]
        intro other ho
        rw [List.mem_reverse]
        exact hc id hm hb other ((mem_unfoldingTo_iff ht hl).mp ho)
      · rename_i hs
        have hs : v.seen.contains id = false := by simpa using hs
        rw [hfold, unfoldingTo, List.reverse_cons, List.append_assoc, List.singleton_append]
        · intro arg ha
          have := ht.args_lt ha
          omega
        · exact hv.insert hs
        · intro other ho hlt below hbelow
          rcases List.mem_cons.mp ho with rfl | ho
          · exact absurd hlt (Nat.lt_irrefl _)
          · exact List.mem_cons_of_mem _ (hc other ho (Nat.lt_trans hlt hb) below hbelow)

/-- **The walk meets the nodes in the order of their first occurrences in the unfolded tree.** -/
theorem preorder_eq_eraseDups (ht : t.Ordered) (root : Nat) :
    t.preorder root = (t.unfolding root).eraseDups :=
  visit_order ht (root + 1) ⟨fun id => by simp [IdSet.contains], List.nodup_nil⟩
    (Nat.lt_succ_self root) (Nat.lt_succ_self root) fun _ h => absurd h List.not_mem_nil

end Table

end FormulaGraph
