/-
  File:      FormulaGraph/Proofs/Table/Unambiguous.lean
  Subject:   The texts of expressions that were read are unambiguous.

  An undefined function may bear the name of a built-in one: the text of `Add(x, y)` is that of
  `x + y`, and the two have different ids. That is the only way for two ids to share a text, as long
  as there are no doubles.

  * `Operator.isBorrowed`, `Tree.borrows` -- an undefined function under a built-in name;
  * `Tree.eq_of_byName_eq` -- without one, names tell trees apart;
  * `Table.Written.legible` -- what was read is legible;
  * `Table.text_unambiguous` -- when two ids share a text.
-/
import FormulaGraph.Proofs.Table.Sharing
import FormulaGraph.Proofs.Table.Spelling

namespace FormulaGraph

/-! ## 1. Borrowed names -/

namespace Operator

/-- Whether an undefined function bears the name of a built-in kind. -/
def isBorrowed : Operator → Bool
  | undefined name => (ofName? name).isSome
  | _ => false

theorem mem_builtIn {op : Operator} (h : ∀ name, op ≠ undefined name) : op ∈ builtIn := by
  cases op with
  | undefined name => exact absurd rfl (h name)
  | _ => decide

theorem ofName?_isSome {op : Operator} (h : op ∈ builtIn) : (ofName? op.name).isSome = true :=
  List.find?_isSome.mpr ⟨op, h, beq_self_eq_true _⟩

/-- **Names tell operators apart**, if none is borrowed. -/
theorem eq_of_name_eq {op op' : Operator} (h : op.name = op'.name) (hb : op.isBorrowed = false)
    (hb' : op'.isBorrowed = false) : op = op' := by
  have hdistinct : ∀ p ∈ builtIn, ∀ p' ∈ builtIn, p.name = p'.name → p = p' := by decide +kernel
  have hborrowed {name : String} {p : Operator} (hp : ∀ other, p ≠ undefined other)
      (hname : name = p.name) : (undefined name).isBorrowed = true := by
    rw [hname]
    exact ofName?_isSome (mem_builtIn hp)
  by_cases hop : ∃ name, op = undefined name
  · obtain ⟨name, rfl⟩ := hop
    by_cases hop' : ∃ name', op' = undefined name'
    · obtain ⟨name', rfl⟩ := hop'
      exact congrArg undefined h
    · exact absurd (hborrowed (not_exists.mp hop') h) (Bool.eq_false_iff.mp hb)
  · by_cases hop' : ∃ name', op' = undefined name'
    · obtain ⟨name', rfl⟩ := hop'
      exact absurd (hborrowed (not_exists.mp hop) h.symm) (Bool.eq_false_iff.mp hb')
    · exact hdistinct op (mem_builtIn (not_exists.mp hop)) op' (mem_builtIn (not_exists.mp hop')) h

end Operator

namespace Tree

mutual
/-- Whether an operation of the tree bears a borrowed name. -/
def borrows : Tree → Bool
  | symbol _ => false
  | literal _ => false
  | operation op args => op.isBorrowed || borrowsAny args

def borrowsAny : List Tree → Bool
  | [] => false
  | a :: as => a.borrows || borrowsAny as
end

mutual
/-- **Trees that agree by name are equal**, if neither of them borrows one. -/
theorem eq_of_byName_eq : ∀ {a b : Tree}, a.byName = b.byName → a.borrows = false →
    b.borrows = false → a = b
  | symbol _, b, h, _, _ => by
      cases b with
      | symbol _ => exact h
      | literal _ => cases h
      | operation _ _ => cases h
  | literal _, b, h, _, _ => by
      cases b with
      | symbol _ => cases h
      | literal _ => exact h
      | operation _ _ => cases h
  | operation op args, b, h, ha, hb => by
      cases b with
      | symbol _ => cases h
      | literal _ => cases h
      | operation op' args' =>
        obtain ⟨hop, hargs⟩ := operation.inj h
        obtain ⟨ha, has⟩ := Bool.or_eq_false_iff.mp ha
        obtain ⟨hb, hbs⟩ := Bool.or_eq_false_iff.mp hb
        rw [Operator.eq_of_name_eq (Operator.undefined.inj hop) ha hb,
          eq_of_byNameAll_eq hargs has hbs]

theorem eq_of_byNameAll_eq : ∀ {as bs : List Tree}, byNameAll as = byNameAll bs →
    borrowsAny as = false → borrowsAny bs = false → as = bs
  | [], bs, h, _, _ => by
      cases bs with
      | nil => rfl
      | cons b bs => cases h
  | a :: as, bs, h, ha, hb => by
      cases bs with
      | nil => cases h
      | cons b bs =>
        obtain ⟨hfirst, hrest⟩ := List.cons.inj h
        obtain ⟨ha, has⟩ := Bool.or_eq_false_iff.mp ha
        obtain ⟨hb, hbs⟩ := Bool.or_eq_false_iff.mp hb
        rw [eq_of_byName_eq hfirst ha hb, eq_of_byNameAll_eq hrest has hbs]
end

end Tree

/-! ## 2. What was read -/

theorem Operator.Worded.isWord_name {op : Operator} (h : op.Worded) : Token.IsWord op.name := by
  have hbuiltIn : ∀ op ∈ builtIn, Token.IsWord op.name := by decide +kernel
  cases op with
  | undefined name => exact h
  | _ => exact hbuiltIn _ (by decide)

/-- A settled literal that is no double is a constant or a fraction. -/
theorem Literal.Settled.legible {l : Literal} (h : l.Settled) (he : l.IsExact) :
    (Tree.literal l).Legible := by
  rcases h with rfl | rfl | rfl | ⟨n, hn, rfl⟩
  · exact .constant (.inl rfl)
  · exact .constant (.inr (.inl rfl))
  · exact .constant (.inr (.inr rfl))
  · cases hn with
    | float value => exact absurd rfl (he value)
    | exact q _ => exact .fraction q

namespace Table

variable {t : Table} {id : Nat}

/-- **What was written is legible**, but for doubles. -/
theorem Written.legible (hw : t.Written) (ho : t.Ordered) (hlt : id < t.size)
    (he : (t.tree id).Only Literal.IsExact) : (t.tree id).Legible := by
  induction id using Nat.strongRecOn with
  | ind id ih =>
    obtain ⟨node, hn⟩ := exists_node hlt
    have hwritten := hw id node hn
    rw [ho.tree_eq hn] at he ⊢
    cases node with
    | symbol name => exact .symbol hwritten
    | literal l => exact Literal.Settled.legible hwritten (Tree.only_literal.mp he)
    | operation op args =>
      refine .operation (Operator.Worded.isWord_name hwritten) fun a ha => ?_
      obtain ⟨arg, harg, rfl⟩ := List.mem_map.mp ha
      have hbelow : arg < id := ho id _ hn arg harg
      exact ih arg hbelow (Nat.lt_trans hbelow hlt) (Tree.only_operation.mp he _ ha)

/-- **Texts are unambiguous.** Two ids, without doubles below them, have one text if and only if
    their trees agree by the names of operations. So they are one id, unless an undefined function
    below one of them bears the name of a built-in one. -/
theorem text_unambiguous (texts : List (List Char)) {a b : Nat} (ha : a < (readAll texts).size)
    (hb : b < (readAll texts).size) (hae : ((readAll texts).tree a).Only Literal.IsExact)
    (hbe : ((readAll texts).tree b).Only Literal.IsExact) :
    (((readAll texts).tree a).text = ((readAll texts).tree b).text ↔
      ((readAll texts).tree a).byName = ((readAll texts).tree b).byName) ∧
    (((readAll texts).tree a).text = ((readAll texts).tree b).text →
      a = b ∨ ((readAll texts).tree a).borrows = true ∨
        ((readAll texts).tree b).borrows = true) := by
  have ho := (normal_empty.foldl_read texts).ordered
  have hw := written_readAll texts
  have hiff := Tree.text_eq_iff (hw.legible ho ha hae) (hw.legible ho hb hbe)
  refine ⟨hiff, fun h => ?_⟩
  by_contra hnot
  simp only [not_or, Bool.not_eq_true] at hnot
  obtain ⟨hne, hfa, hfb⟩ := hnot
  have htree := Tree.eq_of_byName_eq (hiff.mp h) hfa hfb
  exact hne ((complete_readAll texts).eq_of_tree_eq ho ha hb htree)

/-- A sum, and an undefined function that is called like one. -/
theorem text_unambiguous_borrowed :
    let t := readAll ["2*x + y/3".toList, "Add(2*x, y/3)".toList]
    (8 < t.size ∧ 9 < t.size ∧ (t.tree 8).Only Literal.IsExact ∧ (t.tree 9).Only Literal.IsExact ∧
      (t.tree 8).text = (t.tree 9).text) ∧ (t.tree 8).byName = (t.tree 9).byName ∧
      (8 = 9 ∨ (t.tree 8).borrows = true ∨ (t.tree 9).borrows = true) := by
  intro t
  have hread : 8 < t.size ∧ 9 < t.size ∧ (t.tree 8).Only Literal.IsExact ∧
      (t.tree 9).Only Literal.IsExact ∧ (t.tree 8).text = (t.tree 9).text := by decide +kernel
  obtain ⟨ha, hb, hae, hbe, htext⟩ := hread
  have hboth := text_unambiguous ["2*x + y/3".toList, "Add(2*x, y/3)".toList] ha hb hae hbe
  exact ⟨⟨ha, hb, hae, hbe, htext⟩, hboth.1.mp htext, hboth.2 htext⟩

end Table

end FormulaGraph
