/-
  File:      FormulaGraph/Proofs/Meaning/Lowering.lean
  Subject:   Lowering keeps the value of a formula.

  The induction follows the formula. Each operator is handed to a builder, whose value is known from
  its operands' values; operands that were lowered before stay what they are as the table grows. A
  formula with a value has operands with values, so no complex infinity is ever met.

  * `Lowering.gives_binary`, `Lowering.gives_call` -- one operator, one call;
  * `Formula.lower_eval` -- the value of a formula is the value of its root.
-/
import FormulaGraph.Proofs.Meaning.Folding

namespace FormulaGraph

variable {K : Type*} [Field K] [DecidableEq K] {I : Interpretation K}
variable {t t' : Table} {id : Nat} {span : Span}

/-! ## 1. One step -/

/-- Sums, products and powers have no name that could be called. -/
theorem Operator.ofCall_cases (name : String) :
    (Operator.ofCall name).1 ≠ .add ∧ (Operator.ofCall name).1 ≠ .mul ∧
      (Operator.ofCall name).1 ≠ .pow :=
  Operator.ofCall_of_forall
    (P := fun c => c.1 ≠ .add ∧ c.1 ≠ .mul ∧ c.1 ≠ .pow) (by decide)
    (fun _ => ⟨nofun, nofun, nofun⟩) name

/-- Where a call is not rewritten, its operation has the value of the call. -/
theorem Interpretation.operation_eq_call {op : Operator} {xs : List K}
    (hop : op ≠ .add ∧ op ≠ .mul ∧ op ≠ .pow) (hlog : op = .log → xs.length ≠ 2)
    (hmin : op = .min ∨ op = .max → xs.length ≠ 1) : I.operation op xs = I.call op xs := by
  unfold Interpretation.call
  split
  · exact absurd rfl (hlog rfl)
  · exact absurd rfl (hmin (.inl rfl))
  · exact absurd rfl (hmin (.inr rfl))
  · rfl
  · rename_i hmod
    unfold Interpretation.operation
    split
    · exact absurd rfl hop.1
    · exact absurd rfl hop.2.1
    · exact absurd rfl hop.2.2
    · exact absurd rfl (hmod _ _ rfl)
    · rfl

namespace Lowering

variable {x y z : K} {a b : Nat}

theorem gives_build {f : Table → Nat × Table} (h : build f t = .ok id t')
    (hfree : t'.isFloatFree = true)
    (hf : (f t).2.isFloatFree = true → Table.Gives I (f t) x) : Table.Gives I (id, t') x := by
  cases h
  exact hf hfree

theorem gives_symbol {name : String} (hc : t.Canonical) (hx : I.name name = some x)
    (h : symbol name t = .ok id t') : Table.Gives I (id, t') x := by
  unfold Interpretation.name at hx
  unfold symbol at h
  split at h
  · cases h
    exact hc.gives_literal (.inl rfl) hx
  · cases h
    exact hc.gives_literal (.inr (.inl rfl)) hx
  · cases hx
  · rename_i hpi hexp hzoo
    split at hx
    · exact absurd rfl hpi
    · exact absurd rfl hexp
    · exact absurd rfl hzoo
    · cases h
      cases hx
      exact hc.gives_symbol name

theorem gives_remainder [CharZero K] (hc : t.Canonical) (ha : t.Stands I a x) (hb : t.Stands I b y)
    (hz : I.modulo x y = some z) (h : remainder a b span t = .ok id t')
    (hf : t'.isFloatFree = true) : Table.Gives I (id, t') z := by
  unfold remainder at h
  split at h
  · rename_i hr
    cases h
    exact hc.gives_remainder ha hb hz hr hf
  · cases h

theorem gives_reciprocal [CharZero K] (hc : t.Canonical) (ha : t.Stands I a x) (hx : x ≠ 0)
    (h : reciprocal a t = .ok id t') (hf : t'.isFloatFree = true) :
    Table.Gives I (id, t') x⁻¹ := by
  obtain ⟨minusOne, t₁, h₁, h⟩ := bindM_ok_iff.mp h
  have hgrown := extends_build (fun t => t.extends_intern _) h₁
  have hfree := ((grows_power _ _).extends h).isFloatFree hf
  have hone := gives_build h₁ hfree (hc.gives_minusOne (I := I))
  have hpower : I.power x (-1) = some x⁻¹ := by
    have hint := I.power_int x (-1) (.inl hx)
    rwa [Int.cast_neg, Int.cast_one, zpow_neg_one] at hint
  exact hone.canonical.gives_power (ha.extends hc.ordered hgrown) hone.stands hpower
    (power_ok_iff.mp h) hf

/-- A quotient is a product with the reciprocal; there is one only if the divisor is not zero. -/
theorem gives_quotient [CharZero K] (hc : t.Canonical) (ha : t.Stands I a x) (hb : t.Stands I b y)
    (hz : Interpretation.divide x y = some z)
    (h : (do
      let right ← reciprocal b
      build (·.product [a, right])) t = .ok id t')
    (hf : t'.isFloatFree = true) : Table.Gives I (id, t') z := by
  unfold Interpretation.divide at hz
  split at hz
  · cases hz
  · rename_i hy
    cases hz
    obtain ⟨b', t₁, h₁, h⟩ := bindM_ok_iff.mp h
    have hgrown := (grows_reciprocal b).extends h₁
    have hfree := (extends_build (fun t => t.extends_product _) h).isFloatFree hf
    have hright := gives_reciprocal hc hb hy h₁ hfree
    rw [div_eq_mul_inv]
    exact gives_build h hf
      (hright.canonical.gives_product (ha.extends hc.ordered hgrown) hright.stands)

/-- **One operator.** -/
theorem gives_binary [CharZero K] {op : BinaryOp} (hc : t.Canonical) (ha : t.Stands I a x)
    (hb : t.Stands I b y) (hz : I.binary op x y = some z) (h : binary op a b span t = .ok id t')
    (hf : t'.isFloatFree = true) : Table.Gives I (id, t') z := by
  cases op with
  | add =>
    cases hz
    have h : build (·.sum [a, b]) t = .ok id t' := h
    exact gives_build h hf (hc.gives_sum ha hb)
  | subtract =>
    cases hz
    obtain ⟨b', t₁, h₁, h⟩ := bindM_ok_iff.mp h
    have hgrown := extends_build (fun t => t.extends_negate _) h₁
    have hfree := (extends_build (fun t => t.extends_sum _) h).isFloatFree hf
    have hright := gives_build h₁ hfree (hc.gives_negate hb)
    rw [sub_eq_add_neg]
    exact gives_build h hf
      (hright.canonical.gives_sum (ha.extends hc.ordered hgrown) hright.stands)
  | multiply =>
    cases hz
    have h : build (·.product [a, b]) t = .ok id t' := h
    exact gives_build h hf (hc.gives_product ha hb)
  | divide => exact gives_quotient hc ha hb hz h hf
  | modulo => exact gives_remainder hc ha hb hz h hf
  | power => exact hc.gives_power ha hb hz (power_ok_iff.mp h) hf

/-- **One call.** -/
theorem gives_call [CharZero K] {op : Operator} {args : List Nat} {xs : List K}
    (hop : op ≠ .add ∧ op ≠ .mul ∧ op ≠ .pow) (hc : t.Canonical)
    (ha : List.Forall₂ (t.Stands I) args xs) (hz : I.call op xs = some z)
    (h : call op args span t = .ok id t') (hf : t'.isFloatFree = true) :
    Table.Gives I (id, t') z := by
  unfold call at h
  split at h
  · -- the logarithm to a base
    rename_i arg base
    cases ha with
    | @cons _ x _ _ hx ha =>
      cases ha with
      | @cons _ y _ _ hy hnil =>
        cases hnil
        obtain ⟨u, hu, hz⟩ := Option.bind_eq_some_iff.mp hz
        obtain ⟨v, hv, hz⟩ := Option.bind_eq_some_iff.mp hz
        obtain ⟨above, t₁, h₁, h⟩ := bindM_ok_iff.mp h
        obtain ⟨below, t₂, h₂, h⟩ := bindM_ok_iff.mp h
        have hgrown₁ := extends_build (fun t => t.extends_intern _) h₁
        have hgrown₂ := extends_build (fun t => t.extends_intern _) h₂
        cases h₁
        cases h₂
        have habove : Table.Gives I (t.operation .log [arg]) u :=
          hc.gives_function ⟨by decide, by decide⟩ (.cons hx .nil) hu
        have hbelow : Table.Gives I ((t.operation .log [arg]).2.operation .log [base]) v :=
          habove.canonical.gives_function ⟨by decide, by decide⟩
            (.cons (hy.extends hc.ordered hgrown₁) .nil) hv
        exact gives_quotient hbelow.canonical
          (habove.stands.extends habove.canonical.ordered hgrown₂) hbelow.stands hz h hf
  · cases h
    cases ha with
    | cons hs hnil =>
      cases hnil
      cases hz
      exact ⟨hc, hs⟩
  · cases h
    cases ha with
    | cons hs hnil =>
      cases hnil
      cases hz
      exact ⟨hc, hs⟩
  · cases ha with
    | cons hx ha =>
      cases ha with
      | cons hy hnil =>
        cases hnil
        exact gives_remainder hc hx hy hz h hf
  · rename_i hlog hmin hmax hmod
    have hlog' : op = .log → xs.length ≠ 2 := fun he hlen => by
      obtain ⟨u, v, huv⟩ := List.length_eq_two.mp (ha.length_eq.trans hlen)
      exact hlog u v he huv
    have hmin' : op = .min ∨ op = .max → xs.length ≠ 1 := fun he hlen => by
      obtain ⟨u, hu⟩ := List.length_eq_one_iff.mp (ha.length_eq.trans hlen)
      rcases he with he | he
      · exact hmin u he hu
      · exact hmax u he hu
    rw [← I.operation_eq_call hop hlog' hmin'] at hz
    exact gives_build h hf fun _ => hc.gives_function ⟨hop.1, hop.2.1⟩ ha hz

end Lowering

/-! ## 2. The whole formula -/

namespace Formula

theorem isExact_binary {op : BinaryOp} {left right : Formula} :
    (binary op left right span).isExact = true ↔ left.isExact = true ∧ right.isExact = true := by
  show (left.leaves ++ right.leaves).all isExactLeaf = true ↔ _
  rw [List.all_append, Bool.and_eq_true]
  rfl

mutual
/-- **A lowered formula stands for its value**, whatever the table held before. -/
theorem gives_lower [CharZero K] : ∀ (f : Formula) {t t' : Table} {id : Nat} {x : K},
    f.isExact = true → t.Canonical → f.eval I = some x → f.lower t = .ok id t' →
      t'.isFloatFree = true → Table.Gives I (id, t') x
  | integer value _, t, t', id, x, he, hc, hx, h, hf => by
      cases hx
      have hfits : fitsBits 64 value = true := (Bool.and_eq_true_iff.mp he).1
      have h : Lowering.build (·.number (.ofInt value)) t = .ok id t' := h
      refine Lowering.gives_build h hf fun hf => ?_
      have hcast : (value : K) = ((value : ℚ) : K) := (Rat.cast_intCast value).symm
      rw [← Number.ofRat_intCast hfits] at hf ⊢
      rw [hcast]
      exact hc.gives_number hf
  | float value _, t, t', id, x, he, hc, hx, h, hf => by cases hx
  | symbol name _, t, t', id, x, he, hc, hx, h, hf => Lowering.gives_symbol hc hx h
  | binary op left right _, t, t', id, z, he, hc, hz, h, hf => by
      obtain ⟨hl, hr⟩ := isExact_binary.mp he
      obtain ⟨x, hx, hz⟩ := Option.bind_eq_some_iff.mp hz
      obtain ⟨y, hy, hz⟩ := Option.bind_eq_some_iff.mp hz
      obtain ⟨a, t₁, h₁, h⟩ := bindM_ok_iff.mp h
      obtain ⟨b, t₂, h₂, h⟩ := bindM_ok_iff.mp h
      have hf₂ := (Lowering.extends_binary h).isFloatFree hf
      have hf₁ := (extends_lower right h₂).isFloatFree hf₂
      have ha := gives_lower left hl hc hx h₁ hf₁
      have hb := gives_lower right hr ha.canonical hy h₂ hf₂
      exact Lowering.gives_binary hb.canonical
        (ha.stands.extends ha.canonical.ordered (extends_lower right h₂)) hb.stands hz h hf
  | negative operand _, t, t', id, z, he, hc, hz, h, hf => by
      obtain ⟨x, hx, hz⟩ := Option.bind_eq_some_iff.mp hz
      cases hz
      obtain ⟨a, t₁, h₁, h⟩ := bindM_ok_iff.mp h
      have hf₁ := (Lowering.extends_build (fun t => t.extends_negate _) h).isFloatFree hf
      have ha := gives_lower operand he hc hx h₁ hf₁
      exact Lowering.gives_build h hf (ha.canonical.gives_negate ha.stands)
  | call name arguments _, t, t', id, z, he, hc, hz, h, hf => by
      obtain ⟨xs, hxs, hz⟩ := Option.bind_eq_some_iff.mp hz
      obtain ⟨-, args, t₁, h₁, h⟩ := lower_call_ok h
      have hf₁ := (Lowering.extends_call h).isFloatFree hf
      obtain ⟨hc₁, hargs⟩ := gives_lowerAll arguments he hc hxs h₁ hf₁
      exact Lowering.gives_call (Operator.ofCall_cases name) hc₁ hargs hz h hf
  | group inner _, t, t', id, x, he, hc, hx, h, hf => gives_lower inner he hc hx h hf

theorem gives_lowerAll [CharZero K] : ∀ (fs : List Formula) {t t' : Table} {ids : List Nat}
    {xs : List K}, (leavesAll fs).all isExactLeaf = true → t.Canonical → evalAll I fs = some xs →
      lowerAll fs t = .ok ids t' → t'.isFloatFree = true →
        t'.Canonical ∧ List.Forall₂ (t'.Stands I) ids xs
  | [], t, t', ids, xs, _, hc, hx, h, _ => by
      cases hx
      cases h
      exact ⟨hc, .nil⟩
  | f :: fs, t, t', ids, xs, he, hc, hx, h, hf => by
      have he : (f.leaves ++ leavesAll fs).all isExactLeaf = true := he
      rw [List.all_append, Bool.and_eq_true] at he
      obtain ⟨y, hy, hx⟩ := Option.bind_eq_some_iff.mp hx
      obtain ⟨ys, hys, hx⟩ := Option.bind_eq_some_iff.mp hx
      cases hx
      obtain ⟨a, t₁, h₁, h⟩ := bindM_ok_iff.mp h
      obtain ⟨as, t₂, h₂, h⟩ := bindM_ok_iff.mp h
      cases h
      have hf₁ := (extends_lowerAll fs h₂).isFloatFree hf
      have ha := gives_lower f he.1 hc hy h₁ hf₁
      obtain ⟨hc₂, has⟩ := gives_lowerAll fs he.2 ha.canonical hys h₂ hf
      exact ⟨hc₂, .cons (ha.stands.extends ha.canonical.ordered (extends_lowerAll fs h₂)) has⟩
end

/-- **Lowering keeps the value of a formula.** Let a formula without doubles be lowered into an
    empty table so that no double is left in it. Under every interpretation in a field of
    characteristic zero, if the formula has a value then its root is in the table and has the same
    value; and if the root is the complex infinity then the formula has none. -/
theorem lower_eval {f : Formula} {root : Nat} {t : Table} (hf : f.isExact = true)
    (hl : f.lower .empty = .ok root t) (hfree : t.isFloatFree = true) [CharZero K]
    (I : Interpretation K) :
    (∀ x, f.eval I = some x → root < t.size ∧ (t.tree root).eval I = some x) ∧
      (t.node? root = some (.literal .complexInfinity) → f.eval I = none) := by
  have hvalue : ∀ x, f.eval I = some x → t.Stands I root x := fun x hx =>
    (gives_lower f hf Table.canonical_empty hx hl hfree).stands
  refine ⟨fun x hx => ⟨(hvalue x hx).lt, (hvalue x hx).eval⟩, fun hinf => ?_⟩
  cases hx : f.eval I with
  | none => rfl
  | some x =>
    have hnot := (hvalue x hx).not_isComplexInfinity
    rw [Table.isComplexInfinity, hinf] at hnot
    cases hnot

/-- The formula `x/2 + Mod(7, -3)` at `x = 3`: a reciprocal, a sign and a remainder are folded. -/
theorem lower_eval_half_plus_remainder :
    let f : Formula :=
      binary .add (binary .divide (symbol "x" ⟨0, 1⟩) (integer 2 ⟨2, 3⟩) ⟨0, 3⟩)
        (call "Mod" [integer 7 ⟨10, 11⟩, negative (integer 3 ⟨14, 15⟩) ⟨13, 15⟩] ⟨6, 16⟩) ⟨0, 16⟩
    let I := Interpretation.rational (fun _ => 3) fun _ _ => none
    ∃ t : Table, f.isExact = true ∧ f.lower .empty = .ok 9 t ∧ t.isFloatFree = true ∧
      f.eval I = some (-1 / 2) ∧ (t.tree 9).eval I = some (-1 / 2) := by
  intro f I
  have hl : f.lower .empty = .ok 9 (stateOf (f.lower .empty)) :=
    eq_ok_of_valueOf? (by decide +kernel)
  have hfree : (stateOf (f.lower .empty)).isFloatFree = true := by decide +kernel
  have hx : f.eval I = some (-1 / 2) := by decide +kernel
  exact ⟨_, rfl, hl, hfree, hx, ((lower_eval rfl hl hfree I).1 _ hx).2⟩

end Formula

end FormulaGraph
