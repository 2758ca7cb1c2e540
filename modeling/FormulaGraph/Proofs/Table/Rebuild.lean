/-
  File:      FormulaGraph/Proofs/Table/Rebuild.lean
  Subject:   Building a stored operation once more changes nothing.

  A builder that would rewrite what another pass of itself has left would break sharing: the same
  expression would come out under two ids. Flat arguments are left alone by flattening, their
  coefficient is the literal that its number is written as, and what is interned is found again.

  * `Complete.intern_eq`, `Complete.number_eq` -- what is stored is given back;
  * `Flat.flatMap_operands` -- flattening leaves flat arguments alone;
  * `Flat.combine_eq` -- a sum or a product of its own coefficient and its own terms;
  * `Rebuilds`, `rebuilds_readAll` -- all builders, after reading any texts.
-/
import FormulaGraph.Proofs.Table.Sharing
import FormulaGraph.Proofs.Table.Written

namespace FormulaGraph.Table

variable {t : Table} {id : Nat} {node : Node} {op : Operator} {args : List Nat}

/-! ## 1. What is stored is given back -/

theorem Complete.intern_eq (hc : t.Complete) (hn : t.node? id = some node) :
    t.intern node = (id, t) := by
  unfold Table.intern
  rw [hc id node hn]

/-- The number that a written node stands for is the one that it was written for. -/
theorem Complete.number_eq {c : Number} (hc : t.Complete) (hw : t.Written)
    (hn : t.numeric? id = some c) : t.number c = (id, t) := by
  unfold numeric? at hn
  split at hn
  · rename_i value hvalue
    have hsettled : value.Settled := hw id _ hvalue
    show t.intern (.literal (.ofNumber c)) = (id, t)
    rw [hsettled.ofNumber_eq hn]
    exact hc.intern_eq hvalue
  · cases hn

/-- The builders ask what a node stands for, and only if it stands for a number. -/
theorem any_numeric?_eq_false {p : Number → Bool} (h : ∀ n, t.numeric? id = some n → p n = false) :
    (t.numeric? id).any p = false := by
  cases hn : t.numeric? id with
  | none => rfl
  | some n => exact h n hn

/-! ## 2. Sums and products -/

/-- **Flattening leaves flat arguments alone.** -/
theorem Flat.flatMap_operands (h : t.Flat op args) : args.flatMap (t.operands op) = args := by
  calc args.flatMap (t.operands op)
      = args.flatMap (fun arg => [arg]) :=
        List.flatMap_congr fun arg ha => operands_of_not_nested (h.not_nested arg ha)
    _ = args := List.flatMap_singleton' args

theorem Flat.any_isComplexInfinity (h : t.Flat op args) : args.any t.isComplexInfinity = false := by
  refine List.any_eq_false.mpr fun arg ha => ?_
  rw [h.finite arg ha]
  exact Bool.false_ne_true

/-- Flat arguments have one number at most, the first; so it is what the numbers fold to. -/
theorem Flat.foldNumbers_eq {first : Nat} {rest : List Nat} (h : t.Flat op (first :: rest))
    (f : Number → Number → Number) :
    foldNumbers f ((first :: rest).filterMap t.numeric?) = t.numeric? first := by
  have hrest : rest.filterMap t.numeric? = [] := List.filterMap_eq_nil_iff.mpr h.others
  cases hfirst : t.numeric? first with
  | none =>
    rw [List.filterMap_cons_none hfirst, hrest]
    rfl
  | some c =>
    rw [List.filterMap_cons_some hfirst, hrest]
    rfl

/-- **A sum or a product is what its own coefficient and its own terms combine to.** -/
theorem Flat.combine_eq {first : Nat} {rest : List Nat} (h : t.Flat op (first :: rest))
    (hc : t.Complete) (hw : t.Written) (hn : t.node? id = some (.operation op (first :: rest)))
    (hrest : rest ≠ []) {keep : Number → Bool}
    (hkeep : ∀ c, op.absorbs c = false → keep c = true) (alone : Number) :
    t.combine op ((t.numeric? first).filter keep)
      ((first :: rest).filter fun a => (t.numeric? a).isNone) alone = (id, t) := by
  obtain ⟨second, rest, rfl⟩ := List.exists_cons_of_ne_nil hrest
  have hterms : (second :: rest).filter (fun a => (t.numeric? a).isNone) = second :: rest :=
    List.filter_eq_self.mpr fun arg ha => Option.isNone_iff_eq_none.mpr (h.others arg ha)
  cases hfirst : t.numeric? first with
  | none =>
    rw [List.filter_cons_of_pos (by simp [hfirst]), hterms]
    exact hc.intern_eq hn
  | some c =>
    have hkept : keep c = true := hkeep c (h.coefficient first List.mem_cons_self c hfirst)
    rw [List.filter_cons_of_neg (by simp [hfirst]), hterms, Option.filter_some_pos hkept,
      combine_some, hc.number_eq hw hfirst]
    exact hc.intern_eq hn

/-! ## 3. All builders -/

/-- Every builder, given the arguments of a stored operation, gives back its id and leaves the table
    as it is. -/
structure Rebuilds (t : Table) : Prop where
  sum : ∀ id args, t.node? id = some (.operation .add args) → t.sum args = (id, t)
  product : ∀ id args, t.node? id = some (.operation .mul args) → t.product args = (id, t)
  power : ∀ id args, t.node? id = some (.operation .pow args) →
    ∃ base exponent, args = [base, exponent] ∧ t.power base exponent = .ok (id, t)
  remainder : ∀ id args, t.node? id = some (.operation .mod args) →
    ∃ a b, args = [a, b] ∧ t.remainder? a b = some (id, t)

/-- The arguments of a stored sum or product: flat, and at least two. -/
theorem Normal.exists_flat (h : t.Normal) (hop : op = .add ∨ op = .mul)
    (hn : t.node? id = some (.operation op args)) :
    ∃ first rest, args = first :: rest ∧ rest ≠ [] ∧ t.Flat op (first :: rest) := by
  have hnormal : t.NormalOperation op args := h.nodes id _ hn
  have hlen : 2 ≤ args.length := by
    rcases hop with rfl | rfl
    · exact of_decide_eq_true hnormal.arity
    · exact of_decide_eq_true hnormal.arity
  obtain ⟨first, rest, rfl⟩ := List.exists_cons_of_length_pos (Nat.lt_of_succ_lt hlen)
  exact ⟨first, rest, rfl, List.ne_nil_of_length_pos (Nat.lt_of_succ_lt_succ hlen),
    hnormal.flat hop⟩

theorem Normal.sum_eq (h : t.Normal) (hc : t.Complete) (hw : t.Written)
    (hn : t.node? id = some (.operation .add args)) : t.sum args = (id, t) := by
  obtain ⟨first, rest, rfl, hrest, hflat⟩ := h.exists_flat (.inl rfl) hn
  unfold Table.sum
  dsimp only
  rw [hflat.flatMap_operands, hflat.any_isComplexInfinity, if_neg Bool.false_ne_true,
    hflat.foldNumbers_eq]
  refine hflat.combine_eq hc hw hn hrest (fun c hzero => ?_) _
  have hzero : c.isZero = false := hzero
  rw [hzero]
  rfl

theorem Normal.product_eq (h : t.Normal) (hc : t.Complete) (hw : t.Written)
    (hn : t.node? id = some (.operation .mul args)) : t.product args = (id, t) := by
  obtain ⟨first, rest, rfl, hrest, hflat⟩ := h.exists_flat (.inr rfl) hn
  have habsorbs : ∀ c, Operator.absorbs .mul c = false → c.isZero = false ∧ c.isOne = false :=
    fun c hc => Bool.or_eq_false_iff.mp hc
  have hzero : (t.numeric? first).any Number.isZero = false :=
    any_numeric?_eq_false fun c hc =>
      (habsorbs c (hflat.coefficient first List.mem_cons_self c hc)).1
  unfold Table.product
  dsimp only
  rw [hflat.flatMap_operands, hflat.any_isComplexInfinity, if_neg Bool.false_ne_true,
    hflat.foldNumbers_eq, hzero, if_neg Bool.false_ne_true]
  refine hflat.combine_eq hc hw hn hrest (fun c hc => ?_) _
  rw [(habsorbs c hc).2]
  rfl

theorem Normal.power_eq {base exponent : Nat} (h : t.Normal) (hc : t.Complete)
    (hn : t.node? id = some (.operation .pow [base, exponent])) :
    t.power base exponent = .ok (id, t) := by
  have hnormal : t.NormalOperation .pow [base, exponent] := h.nodes id _ hn
  have hunfolded := hnormal.power base exponent rfl rfl
  have hone : (t.numeric? exponent).any Number.isOne = false :=
    any_numeric?_eq_false fun e he => (hunfolded.exponent_ne e he).2
  have hzero : (t.numeric? exponent).any Number.isZero = false :=
    any_numeric?_eq_false fun e he => (hunfolded.exponent_ne e he).1
  have hbase : (t.numeric? base).any Number.isOne = false :=
    any_numeric?_eq_false hunfolded.base_ne
  have hkept : t.power base exponent = .ok (t.operation .pow [base, exponent]) := by
    unfold Table.power
    dsimp only
    rw [hone, hzero, hbase, if_neg Bool.false_ne_true, Bool.or_self, if_neg Bool.false_ne_true]
    split
    · rename_i b e hb he
      obtain ⟨hnone, hinfinite⟩ := hunfolded.numbers b e hb he
      unfold Table.foldedPower
      rw [if_neg (fun hboth => hinfinite (Bool.and_eq_true_iff.mp hboth)), hnone]
      rfl
    · rfl
  rw [hkept]
  exact congrArg Except.ok (hc.intern_eq hn)

theorem Normal.remainder_eq {a b : Nat} (h : t.Normal) (hc : t.Complete)
    (hn : t.node? id = some (.operation .mod [a, b])) : t.remainder? a b = some (id, t) := by
  have hnormal : t.NormalOperation .mod [a, b] := h.nodes id _ hn
  have hkept : t.remainder? a b = some (t.operation .mod [a, b]) := by
    unfold remainder?
    rcases hnormal.remainder a b rfl rfl with hnone | hnone
    · rw [hnone]
    · rw [hnone]
      cases t.numeric? a
      · rfl
      · rfl
  rw [hkept]
  exact congrArg some (hc.intern_eq hn)

theorem Normal.rebuilds (h : t.Normal) (hc : t.Complete) (hw : t.Written) : t.Rebuilds where
  sum _ _ hn := h.sum_eq hc hw hn
  product _ _ hn := h.product_eq hc hw hn
  power id args hn := by
    have hnormal : t.NormalOperation .pow args := h.nodes id _ hn
    obtain ⟨base, exponent, rfl⟩ := List.length_eq_two.mp (of_decide_eq_true hnormal.arity)
    exact ⟨base, exponent, rfl, h.power_eq hc hn⟩
  remainder id args hn := by
    have hnormal : t.NormalOperation .mod args := h.nodes id _ hn
    obtain ⟨a, b, rfl⟩ := List.length_eq_two.mp (of_decide_eq_true hnormal.arity)
    exact ⟨a, b, rfl, h.remainder_eq hc hn⟩

/-- **Canonical form is reached in one pass.** Whatever texts were read, refused ones among them,
    each builder gives a stored operation of its kind back when it is called on its arguments
    again. -/
theorem rebuilds_readAll (texts : List (List Char)) : (readAll texts).Rebuilds :=
  (normal_empty.foldl_read texts).rebuilds (complete_readAll texts) (written_readAll texts)

-- A product with a coefficient under a sum with one.
example : let t := readAll ["2*x*y + 1/3".toList]
    t.node? 9 = some (.operation .add [8, 4]) ∧ t.sum [8, 4] = (9, t) := by
  decide +kernel

end FormulaGraph.Table
