/-
  File:      FormulaGraph/Proofs/Meaning/Folding.lean
  Subject:   The builders that fold keep the value.

  Sums and products are built alike: their arguments are flattened, the numbers among them are
  folded into one coefficient, and a coefficient that changes nothing is dropped. `Fold` says once
  what the two have in common. Each of two canonical arguments brings one number at most, so two
  numbers are folded at most; this is what keeps a double that arises from ever passing for zero.

  * `Canonical.flattened` -- the coefficient and the other arguments, and the value they make up;
  * `Canonical.gives_sum`, `Canonical.gives_product`, `Canonical.gives_power`,
    `Canonical.gives_remainder` -- the builders, given that no double is left in the table.
-/
import FormulaGraph.Proofs.Meaning.Canonical

namespace FormulaGraph

/-! ## 1. Sums and products -/

/-- The two operations whose arguments are flattened and folded. -/
inductive Fold where
  | sum
  | product

namespace Fold

def op : Fold → Operator
  | sum => .add
  | product => .mul

def onNumbers : Fold → Number → Number → Number
  | sum => Number.add
  | product => Number.mul

variable {K : Type*} [Field K]

def join : Fold → K → K → K
  | sum => (· + ·)
  | product => (· * ·)

/-- What changes nothing when it is joined. -/
def unit : Fold → K
  | sum => 0
  | product => 1

def total (c : Fold) (xs : List K) : K := xs.foldr c.join c.unit

theorem op_cases (c : Fold) : c.op = .add ∨ c.op = .mul := by
  cases c
  · exact .inl rfl
  · exact .inr rfl

theorem join_unit (c : Fold) (x : K) : c.join x c.unit = x := by
  cases c
  · exact add_zero x
  · exact mul_one x

theorem unit_join (c : Fold) (x : K) : c.join c.unit x = x := by
  cases c
  · exact zero_add x
  · exact one_mul x

theorem join_assoc (c : Fold) (x y z : K) : c.join (c.join x y) z = c.join x (c.join y z) := by
  cases c
  · exact add_assoc x y z
  · exact mul_assoc x y z

theorem join_left_comm (c : Fold) (x y z : K) : c.join x (c.join y z) = c.join y (c.join x z) := by
  cases c
  · exact add_left_comm x y z
  · exact mul_left_comm x y z

theorem total_append (c : Fold) (xs ys : List K) :
    c.total (xs ++ ys) = c.join (c.total xs) (c.total ys) := by
  induction xs with
  | nil => exact (c.unit_join _).symm
  | cons x xs ih =>
    show c.join x (c.total (xs ++ ys)) = c.join (c.join x (c.total xs)) _
    rw [ih, c.join_assoc]

theorem cast_unit (c : Fold) : ((c.unit : ℚ) : K) = c.unit := by
  cases c
  · exact Rat.cast_zero
  · exact Rat.cast_one

theorem cast_join [CharZero K] (c : Fold) (p q : ℚ) :
    ((c.join p q : ℚ) : K) = c.join (p : K) (q : K) := by
  cases c
  · exact Rat.cast_add p q
  · exact Rat.cast_mul p q

theorem operation_eq [DecidableEq K] (c : Fold) (I : Interpretation K) (xs : List K) :
    I.operation c.op xs = some (c.total xs) := by
  cases c
  · rfl
  · rfl

/-- Two fractions are joined exactly, or become a double; none but zero passes for zero. -/
theorem onNumbers_exact (c : Fold) {p q : ℚ} (hp : Number.Fits p) (hq : Number.Fits q) :
    c.onNumbers (.exact p) (.exact q) = .ofRat (c.join p q) ∧
      ((Number.ofRat (c.join p q)).isZero = true ↔ c.join p q = 0) := by
  cases c
  · exact ⟨Number.add_exact p q, Number.isZero_add_exact hp hq⟩
  · exact ⟨Number.mul_exact p q, Number.isZero_mul_exact hp hq⟩

/-- What two numbers at most are folded into. -/
theorem foldNumbers_exact (c : Fold) {qs : List ℚ} (hq : ∀ q ∈ qs, Number.Fits q)
    (hlen : qs.length ≤ 2) :
    (Table.foldNumbers c.onNumbers (qs.map .exact) = none ∧ c.total qs = c.unit ∨
        Table.foldNumbers c.onNumbers (qs.map .exact) = some (.ofRat (c.total qs))) ∧
      ((Number.ofRat (c.total qs)).isZero = true ↔ c.total qs = 0) := by
  match qs, hlen with
  | [], _ =>
    refine ⟨.inl ⟨rfl, rfl⟩, ?_⟩
    cases c
    · decide +kernel
    · decide +kernel
  | [p], _ =>
    have hp : Number.Fits p := hq p List.mem_cons_self
    have htotal : c.total [p] = p := c.join_unit p
    rw [htotal, Number.ofRat_of_fits hp]
    exact ⟨.inr rfl, Number.isZero_exact p⟩
  | [p, q], _ =>
    have htotal : c.total [p, q] = c.join p q := congrArg (c.join p) (c.join_unit q)
    obtain ⟨hjoin, hzero⟩ := c.onNumbers_exact (hq p List.mem_cons_self)
      (hq q (List.mem_cons_of_mem _ List.mem_cons_self))
    rw [htotal]
    exact ⟨.inr (congrArg some hjoin), hzero⟩

end Fold

namespace Table

variable {K : Type*} [Field K] [DecidableEq K] {I : Interpretation K} {t : Table}
  {id a b : Nat} {x y : K}

/-! ## 2. Flattening -/

/-- The operands of an id make up its value, and one of them at most is a number. -/
theorem Canonical.operands (h : t.Canonical) (c : Fold) (hs : t.Stands I id x) :
    ∃ zs, List.Forall₂ (t.Stands I) (t.operands c.op id) zs ∧ c.total zs = x ∧
      ((t.operands c.op id).filterMap t.numeric?).length ≤ 1 := by
  have hself : ∃ zs, List.Forall₂ (t.Stands I) [id] zs ∧ c.total zs = x ∧
      ([id].filterMap t.numeric?).length ≤ 1 :=
    ⟨[x], .cons hs .nil, c.join_unit x, List.length_filterMap_le _ _⟩
  unfold Table.operands
  split
  · rename_i op args hn
    split
    · rename_i hop
      subst hop
      obtain ⟨zs, hzs, hx⟩ := (h.stands_operation hn).mp hs
      rw [c.operation_eq] at hx
      exact ⟨zs, hzs, Option.some.inj hx, (h.suits id _ hn).2 c.op_cases⟩
    · exact hself
  · exact hself

/-- The numbers among the arguments, and the others: together they make up the value. -/
theorem Canonical.split [CharZero K] (h : t.Canonical) (c : Fold) {args : List Nat} {zs : List K}
    (ha : List.Forall₂ (t.Stands I) args zs) :
    ∃ (qs : List ℚ) (xs : List K), args.filterMap t.numeric? = qs.map .exact ∧
      (∀ q ∈ qs, Number.Fits q) ∧
      List.Forall₂ (t.Stands I) (args.filter fun a => (t.numeric? a).isNone) xs ∧
      c.total zs = c.join ((c.total qs : ℚ) : K) (c.total xs) := by
  induction ha with
  | nil =>
    refine ⟨[], [], rfl, fun q hq => absurd hq List.not_mem_nil, .nil, ?_⟩
    show c.unit = c.join ((c.unit : ℚ) : K) c.unit
    rw [c.join_unit, c.cast_unit]
  | @cons arg z args zs hs _ ih =>
    obtain ⟨qs, xs, hqs, hfits, hxs, htotal⟩ := ih
    cases hn : t.numeric? arg with
    | none =>
      refine ⟨qs, z :: xs, ?_, hfits, ?_, ?_⟩
      · rw [List.filterMap_cons_none hn, hqs]
      · rw [List.filter_cons_of_pos (by rw [hn]; rfl)]
        exact .cons hs hxs
      · show c.join z (c.total zs) = c.join _ (c.join z (c.total xs))
        rw [htotal, c.join_left_comm]
    | some n =>
      obtain ⟨q, hq, rfl, rfl⟩ := h.numeric hs hn
      refine ⟨q :: qs, xs, ?_, ?_, ?_, ?_⟩
      · rw [List.filterMap_cons_some hn, hqs, List.map_cons]
      · intro p hp
        rcases List.mem_cons.mp hp with rfl | hp
        · exact hq
        · exact hfits p hp
      · rw [List.filter_cons_of_neg (by rw [hn]; exact Bool.false_ne_true)]
        exact hxs
      · show c.join (q : K) (c.total zs) = c.join ((c.join q (c.total qs) : ℚ) : K) (c.total xs)
        rw [htotal, c.cast_join, c.join_assoc]

/-- The arguments of a sum or a product of two ids. -/
def flatArgs (t : Table) (c : Fold) (a b : Nat) : List Nat := [a, b].flatMap (t.operands c.op)

/-- **What two ids are flattened into**: a coefficient that is an exact fraction or a double, and
    other arguments. -/
theorem Canonical.flattened [CharZero K] (h : t.Canonical) (c : Fold) (ha : t.Stands I a x)
    (hb : t.Stands I b y) :
    (t.flatArgs c a b).any t.isComplexInfinity = false ∧
      ∃ (q : ℚ) (xs : List K),
        (foldNumbers c.onNumbers ((t.flatArgs c a b).filterMap t.numeric?) = none ∧ q = c.unit ∨
          foldNumbers c.onNumbers ((t.flatArgs c a b).filterMap t.numeric?) = some (.ofRat q)) ∧
        ((Number.ofRat q).isZero = true ↔ q = 0) ∧
        List.Forall₂ (t.Stands I) ((t.flatArgs c a b).filter fun a => (t.numeric? a).isNone) xs ∧
        c.join x y = c.join (q : K) (c.total xs) := by
  obtain ⟨us, hus, hx, hcount⟩ := h.operands c ha
  obtain ⟨vs, hvs, hy, hcount'⟩ := h.operands c hb
  have hargs : t.flatArgs c a b = t.operands c.op a ++ t.operands c.op b := by
    simp [flatArgs]
  have hall : List.Forall₂ (t.Stands I) (t.flatArgs c a b) (us ++ vs) := by
    rw [hargs]
    exact List.rel_append hus hvs
  obtain ⟨qs, xs, hqs, hfits, hxs, htotal⟩ := h.split c hall
  have hlen : qs.length ≤ 2 := by
    have hlength := congrArg List.length hqs
    rw [hargs, List.filterMap_append, List.length_append, List.length_map] at hlength
    omega
  obtain ⟨hfold, hzero⟩ := c.foldNumbers_exact hfits hlen
  refine ⟨?_, c.total qs, xs, ?_, hzero, hxs, ?_⟩
  · rw [List.any_eq_false]
    intro arg harg
    have hstands := (List.forall₂_and_left _ _ |>.mp
      (hall.imp fun arg z hs => ⟨hs.not_isComplexInfinity, hs⟩)).1 arg harg
    rw [hstands]
    exact Bool.false_ne_true
  · rw [hqs]
    exact hfold
  · rw [← hx, ← hy, ← c.total_append, htotal]

/-! ## 3. Building sums and products -/

theorem filterMap_filter_numeric? (args : List Nat) :
    (args.filter fun a => (t.numeric? a).isNone).filterMap t.numeric? = [] := by
  rw [List.filterMap_eq_nil_iff]
  intro arg harg
  exact Option.isNone_iff_eq_none.mp (List.mem_filter.mp harg).2

/-- The operation on a coefficient and arguments that are no numbers. -/
theorem Canonical.gives_combine [CharZero K] (h : t.Canonical) (c : Fold) {others : List Nat}
    {xs : List K} (hs : List.Forall₂ (t.Stands I) others xs)
    (hnone : others.filterMap t.numeric? = []) {coefficient : Option Number} {q : ℚ}
    (hc : coefficient = none ∧ q = c.unit ∨ coefficient = some (.ofRat q))
    (hf : (t.combine c.op coefficient others (.ofRat q)).2.isFloatFree = true) :
    Gives I (t.combine c.op coefficient others (.ofRat q)) (c.join (q : K) (c.total xs)) := by
  cases hs with
  | nil =>
    have hq : c.join (q : K) (c.total []) = q := c.join_unit _
    rw [hq]
    exact h.gives_number hf
  | @cons first x rest xs hfirst hrest =>
    have hall : List.Forall₂ (t.Stands I) (first :: rest) (x :: xs) := .cons hfirst hrest
    rcases hc with ⟨rfl, rfl⟩ | rfl
    · rw [c.cast_unit, c.unit_join]
      cases rest with
      | nil =>
        cases hrest
        have hx : c.total [x] = x := c.join_unit x
        rw [hx]
        exact ⟨h, hfirst⟩
      | cons second rest =>
        refine h.gives_operation hall (fun _ => ?_) (c.operation_eq I _)
        rw [hnone]
        exact Nat.zero_le 1
    · rw [combine_some] at hf ⊢
      -- the coefficient is the one number among the arguments
      have hkept : (t.number (.ofRat q)).2.isFloatFree = true := (extends_intern _ _).isFloatFree hf
      have hnumber : Gives I (t.number (.ofRat q)) (q : K) := h.gives_number hkept
      have hgrown : t.Extends (t.number (.ofRat q)).2 := extends_intern t _
      refine hnumber.canonical.gives_operation
        (.cons hnumber.stands (stands_extends_all hall h.ordered hgrown)) (fun _ => ?_)
        (c.operation_eq I _)
      have hothers : (first :: rest).filterMap (t.number (.ofRat q)).2.numeric? = [] := by
        rw [← hnone]
        refine List.filterMap_congr fun arg harg => hgrown.numeric?_eq ?_
        exact (List.forall₂_and_left _ _ |>.mp (hall.imp fun _ _ hs => ⟨hs.lt, hs⟩)).1 arg harg
      calc (((t.number (.ofRat q)).1 :: first :: rest).filterMap _).length
          ≤ 1 + ((first :: rest).filterMap (t.number (.ofRat q)).2.numeric?).length := by
            rw [List.filterMap_cons]
            split
            · omega
            · rw [List.length_cons]
              omega
        _ = 1 := by rw [hothers]; rfl

/-- **A sum stands for the sum.** -/
theorem Canonical.gives_sum [CharZero K] (h : t.Canonical) (ha : t.Stands I a x)
    (hb : t.Stands I b y) (hf : (t.sum [a, b]).2.isFloatFree = true) :
    Gives I (t.sum [a, b]) (x + y) := by
  obtain ⟨hinf, q, xs, hc, hzero, hxs, htotal⟩ := h.flattened .sum ha hb
  have hsum : x + y = Fold.join .sum (q : K) (Fold.total .sum xs) := htotal
  rw [hsum]
  unfold Table.sum at hf ⊢
  have hargs : [a, b].flatMap (t.operands .add) = t.flatArgs .sum a b := rfl
  have hadd : Number.add = Fold.onNumbers .sum := rfl
  simp only [hargs, hadd, hinf] at hf ⊢
  rcases hc with ⟨hnone, rfl⟩ | hsome
  · rw [hnone, Option.getD_none, ← Number.ofRat_zero] at hf ⊢
    exact h.gives_combine .sum hxs (filterMap_filter_numeric? _) (.inl ⟨rfl, rfl⟩) hf
  · rw [hsome] at hf ⊢
    refine h.gives_combine .sum hxs (filterMap_filter_numeric? _) ?_ hf
    by_cases hq : q = 0
    · exact .inl ⟨by simp [hzero.mpr hq], hq⟩
    · exact .inr (by simp [mt hzero.mp hq])

/-- **A product stands for the product.** -/
theorem Canonical.gives_product [CharZero K] (h : t.Canonical) (ha : t.Stands I a x)
    (hb : t.Stands I b y) (hf : (t.product [a, b]).2.isFloatFree = true) :
    Gives I (t.product [a, b]) (x * y) := by
  obtain ⟨hinf, q, xs, hc, hzero, hxs, htotal⟩ := h.flattened .product ha hb
  have hproduct : x * y = Fold.join .product (q : K) (Fold.total .product xs) := htotal
  unfold Table.product at hf ⊢
  have hargs : [a, b].flatMap (t.operands .mul) = t.flatArgs .product a b := rfl
  have hmul : Number.mul = Fold.onNumbers .product := rfl
  simp only [hargs, hmul, hinf] at hf ⊢
  rcases hc with ⟨hnone, rfl⟩ | hsome
  · rw [hnone, Option.getD_none, ← Number.ofRat_one] at hf ⊢
    rw [hproduct]
    exact h.gives_combine .product hxs (filterMap_filter_numeric? _) (.inl ⟨rfl, rfl⟩) hf
  · rw [hsome] at hf ⊢
    by_cases hq : q = 0
    · -- a zero takes the other arguments with it; all of them have a value
      have hx : x * y = ((0 : ℚ) : K) := by
        rw [hproduct, hq, Rat.cast_zero]
        exact zero_mul _
      simp only [Option.any_some, hzero.mpr hq, if_true, Bool.false_eq_true, if_false] at hf ⊢
      rw [hx]
      rw [← Number.ofRat_zero] at hf ⊢
      exact h.gives_number hf
    · simp only [Option.any_some, Bool.eq_false_iff.mpr (mt hzero.mp hq), Bool.false_eq_true,
        if_false] at hf ⊢
      rw [hproduct]
      refine h.gives_combine .product hxs (filterMap_filter_numeric? _) ?_ hf
      by_cases hone : q = 1
      · exact .inl ⟨by simp [(Number.isOne_ofRat q).mpr hone], hone⟩
      · exact .inr (by simp [mt (Number.isOne_ofRat q).mp hone])

/-! ## 4. Powers, remainders, signs -/

/-- A power of two fractions that is a number stands for the power. -/
theorem Canonical.gives_pow? [CharZero K] (h : t.Canonical) {p q : ℚ} {z : K} {n : Number}
    (hz : I.power (p : K) (q : K) = some z) (hn : (Number.exact p).pow? (.exact q) = .ok (some n))
    (hf : (t.number n).2.isFloatFree = true) : Gives I (t.number n) z := by
  obtain ⟨v, rfl⟩ | ⟨_, _, e, hp, hq, hside, hpow⟩ := Number.pow?_cases hn
  · cases not_isFloat hf (h.indexed.node?_intern _)
  · cases hp
    obtain ⟨rfl, hden⟩ : q.num = e ∧ (q.den : Int) = 1 := Number.rational.inj hq
    have hq : q = (q.num : ℚ) := by
      have hden : q.den = 1 := Int.ofNat.inj hden
      conv_lhs => rw [← Rat.num_div_den q, hden, Nat.cast_one, div_one]
    have hside : p ≠ 0 ∨ 0 ≤ q.num := hside.imp_left Rat.num_ne_zero.mp
    have hvalue : z = ((p ^ q.num : ℚ) : K) := by
      have hside' : (p : K) ≠ 0 ∨ 0 ≤ q.num := hside.imp_left Rat.cast_ne_zero.mpr
      rw [hq, Rat.cast_intCast, I.power_int _ _ hside'] at hz
      rw [← Option.some.inj hz, Rat.cast_zpow]
    obtain rfl := Number.exactPower?_eq_some hside hpow
    rw [hvalue]
    exact h.gives_number hf

/-- **A power stands for the power.** -/
theorem Canonical.gives_power [CharZero K] (h : t.Canonical) {z : K} {result : Nat × Table}
    (ha : t.Stands I a x) (hb : t.Stands I b y) (hz : I.power x y = some z)
    (hp : t.power a b = .ok result) (hf : result.2.isFloatFree = true) : Gives I result z := by
  cases powered hp with
  | base hone =>
    obtain ⟨e, he, hone⟩ := (Option.any_eq_true _ _).mp hone
    obtain ⟨q, -, rfl, rfl⟩ := h.numeric hb he
    rw [(Number.isOne_exact q).mp hone, Rat.cast_one, I.power_one] at hz
    cases hz
    exact ⟨h, ha⟩
  | one htrivial =>
    have hz₁ : z = ((1 : ℚ) : K) := by
      rw [Rat.cast_one]
      rcases Bool.or_eq_true_iff.mp htrivial with hzero | hbase
      · obtain ⟨e, he, hzero⟩ := (Option.any_eq_true _ _).mp hzero
        obtain ⟨q, -, rfl, rfl⟩ := h.numeric hb he
        rw [(Number.isZero_exact q).mp hzero, Rat.cast_zero, I.power_zero] at hz
        exact (Option.some.inj hz).symm
      · obtain ⟨n, hn, hbase⟩ := (Option.any_eq_true _ _).mp hbase
        obtain ⟨p, -, rfl, rfl⟩ := h.numeric ha hn
        rw [(Number.isOne_exact p).mp hbase, Rat.cast_one, I.one_power] at hz
        exact (Option.some.inj hz).symm
    rw [← Number.ofRat_one] at hf
    rw [hz₁, ← Number.ofRat_one]
    exact h.gives_number hf
  | infinity hm he hpole =>
    -- zero to a negative power has no value
    obtain ⟨p, -, rfl, rfl⟩ := h.numeric ha hm
    obtain ⟨q, -, rfl, rfl⟩ := h.numeric hb he
    obtain ⟨hp, hq⟩ := Bool.and_eq_true_iff.mp hpole
    rw [(Number.isZero_exact p).mp hp, Rat.cast_zero,
      I.zero_power q ((Number.isNegative_exact q).mp hq)] at hz
    cases hz
  | number hm he hn =>
    obtain ⟨p, -, rfl, rfl⟩ := h.numeric ha hm
    obtain ⟨q, -, rfl, rfl⟩ := h.numeric hb he
    exact h.gives_pow? hz hn hf
  | operation _ _ _ => exact h.gives_function ⟨nofun, nofun⟩ (.cons ha (.cons hb .nil)) hz

/-- **A remainder stands for the remainder.** -/
theorem Canonical.gives_remainder [CharZero K] (h : t.Canonical) {z : K} {result : Nat × Table}
    (ha : t.Stands I a x) (hb : t.Stands I b y) (hz : I.modulo x y = some z)
    (hr : t.remainder? a b = some result) (hf : result.2.isFloatFree = true) :
    Gives I result z := by
  unfold Table.remainder? at hr
  split at hr
  · rename_i m n hm hn
    obtain ⟨p, -, rfl, rfl⟩ := h.numeric ha hm
    obtain ⟨q, -, rfl, rfl⟩ := h.numeric hb hn
    have hq : q ≠ 0 := by
      rintro rfl
      cases hr
    rw [Number.modulo?_exact hq] at hr
    cases hr
    rw [I.modulo_rat p q hq] at hz
    cases hz
    exact h.gives_number hf
  · cases hr
    exact h.gives_function ⟨nofun, nofun⟩ (.cons ha (.cons hb .nil)) hz

/-- The number minus one, which signs and reciprocals are built with. -/
theorem Canonical.gives_minusOne [CharZero K] (h : t.Canonical)
    (hf : (t.number (.ofInt (-1))).2.isFloatFree = true) :
    Gives I (t.number (.ofInt (-1))) (-1 : K) := by
  have hn : Number.ofInt (-1) = .ofRat ((-1 : Int) : ℚ) := (Number.ofRat_intCast (by decide)).symm
  have hx : (-1 : K) = (((-1 : Int) : ℚ) : K) := by
    rw [Rat.cast_intCast, Int.cast_neg, Int.cast_one]
  rw [hn] at hf ⊢
  rw [hx]
  exact h.gives_number hf

theorem Canonical.gives_negate [CharZero K] (h : t.Canonical) (hs : t.Stands I id x)
    (hf : (t.negate id).2.isFloatFree = true) : Gives I (t.negate id) (-x) := by
  have hone := h.gives_minusOne (I := I) ((extends_product _ _).isFloatFree hf)
  rw [neg_eq_neg_one_mul]
  exact hone.canonical.gives_product hone.stands (hs.extends h.ordered (extends_intern t _)) hf

end Table

end FormulaGraph
