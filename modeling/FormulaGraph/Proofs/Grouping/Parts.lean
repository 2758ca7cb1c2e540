/-
  File:      FormulaGraph/Proofs/Grouping/Parts.lean
  Subject:   Sums and products as a coefficient and other arguments.

  A sum in normal form is told by a rational number and the list of its other terms, a product by a
  rational number and the list of its other factors; the complex infinity is told by itself. Joining
  two of them joins the numbers and appends the lists. This is associative, where the trees are not
  obviously so: numbers cancel, a single argument is left, a zero takes factors with it.

  * `Parts`, `Fold.merge` -- what a tree is told by, and joining; `merge_assoc`, `mergeAll_append`;
  * `Fold.tree`, `Fold.HasParts` -- the tree of parts in normal form;
  * `HasParts.build` -- joining trees joins their parts, if no double arises;
  * `hasParts_partsOf` -- every tree in normal form has parts.
-/
import FormulaGraph.Proofs.Grouping.Literals
import FormulaGraph.Proofs.Meaning.Folding
import FormulaGraph.Proofs.Table.Normal

namespace FormulaGraph

/-- What is left of a sum or a product. -/
inductive Parts where
  /-- The complex infinity. -/
  | infinite
  /-- A coefficient, and the arguments that are no numbers. -/
  | finite (q : ℚ) (others : List Tree)

namespace Fold

variable {c : Fold} {p q r : ℚ} {xs ys zs : List Tree} {P Q R : Parts} {a b : Tree}

/-! ## 1. Joining -/

/-- A coefficient and other arguments. A zero takes the other factors of a product with it. -/
def settle : Fold → ℚ → List Tree → Parts
  | sum, q, others => .finite q others
  | product, q, others => if q = 0 then .finite 0 [] else .finite q others

/-- Joins two parts. The infinity takes everything with it. -/
def merge (c : Fold) : Parts → Parts → Parts
  | .finite p xs, .finite q ys => c.settle (c.join p q) (xs ++ ys)
  | _, _ => .infinite

/-- Joins a list of parts. -/
def mergeAll (c : Fold) (parts : List Parts) : Parts := parts.foldr c.merge (.finite c.unit [])

theorem settle_cases (c : Fold) (q : ℚ) (xs : List Tree) :
    c.settle q xs = .finite q xs ∨ c = product ∧ q = 0 ∧ c.settle q xs = .finite 0 [] := by
  cases c with
  | sum => exact .inl rfl
  | product =>
    by_cases hq : q = 0
    · exact .inr ⟨rfl, hq, if_pos hq⟩
    · exact .inl (if_neg hq)

theorem settle_unit (c : Fold) (xs : List Tree) : c.settle c.unit xs = .finite c.unit xs := by
  cases c with
  | sum => rfl
  | product =>
    have hone : (product.unit : ℚ) ≠ 0 := one_ne_zero
    rw [settle, if_neg hone]

theorem merge_settle_left (c : Fold) (p r : ℚ) (xs zs : List Tree) :
    c.merge (c.settle p xs) (.finite r zs) = c.settle (c.join p r) (xs ++ zs) := by
  rcases c.settle_cases p xs with h | ⟨rfl, rfl, h⟩
  · rw [h]
    rfl
  · have hzero : product.join (0 : ℚ) r = 0 := zero_mul r
    rw [h, merge, hzero]
    rfl

theorem merge_settle_right (c : Fold) (p r : ℚ) (xs zs : List Tree) :
    c.merge (.finite p xs) (c.settle r zs) = c.settle (c.join p r) (xs ++ zs) := by
  rcases c.settle_cases r zs with h | ⟨rfl, rfl, h⟩
  · rw [h]
    rfl
  · have hzero : product.join p (0 : ℚ) = 0 := mul_zero p
    rw [h, merge, hzero]
    rfl

theorem merge_infinite (c : Fold) (P : Parts) : c.merge P .infinite = .infinite := by
  cases P <;> rfl

/-- **Joining is associative.** -/
theorem merge_assoc (c : Fold) (P Q R : Parts) :
    c.merge (c.merge P Q) R = c.merge P (c.merge Q R) := by
  cases P with
  | infinite => rfl
  | finite p xs =>
    cases Q with
    | infinite => rfl
    | finite q ys =>
      cases R with
      | infinite => rw [merge_infinite, merge_infinite, merge_infinite]
      | finite r zs =>
        show c.merge (c.settle _ _) (.finite r zs) = c.merge (.finite p xs) (c.settle _ _)
        rw [merge_settle_left, merge_settle_right, c.join_assoc, List.append_assoc]

theorem unit_merge_settle (c : Fold) (q : ℚ) (xs : List Tree) :
    c.merge (.finite c.unit []) (c.settle q xs) = c.settle q xs := by
  rw [merge_settle_right, c.unit_join, List.nil_append]

/-- What is joined is settled. -/
theorem mergeAll_cases (c : Fold) (parts : List Parts) :
    c.mergeAll parts = .infinite ∨ ∃ q xs, c.mergeAll parts = c.settle q xs := by
  cases parts with
  | nil => exact .inr ⟨c.unit, [], (c.settle_unit []).symm⟩
  | cons P parts =>
    have hcons : c.mergeAll (P :: parts) = c.merge P (c.mergeAll parts) := rfl
    rw [hcons]
    cases P with
    | infinite => exact .inl rfl
    | finite p xs =>
      cases c.mergeAll parts with
      | infinite => exact .inl rfl
      | finite q ys => exact .inr ⟨_, _, rfl⟩

theorem mergeAll_append (c : Fold) (parts more : List Parts) :
    c.mergeAll (parts ++ more) = c.merge (c.mergeAll parts) (c.mergeAll more) := by
  induction parts with
  | nil =>
    show c.mergeAll more = c.merge (.finite c.unit []) (c.mergeAll more)
    rcases c.mergeAll_cases more with h | ⟨q, xs, h⟩
    · rw [h]
      rfl
    · rw [h, unit_merge_settle]
  | cons P parts ih =>
    show c.merge P (c.mergeAll (parts ++ more)) = c.merge (c.merge P (c.mergeAll parts)) _
    rw [ih, merge_assoc]

/-! ## 2. Trees of parts -/

/-- The sum or the product of trees. -/
def build : Fold → List Tree → Tree
  | sum => Tree.sum
  | product => Tree.product

/-- The tree of parts. -/
def tree (c : Fold) : Parts → Tree
  | .infinite => .literal .complexInfinity
  | .finite q others =>
    .combine c.op (if q = c.unit then none else some (.ofRat q)) others (.ofRat q)

/-- An argument that is no number, not the infinity, and not flattened. -/
structure IsTerm (c : Fold) (x : Tree) : Prop where
  not_numeric : x.numeric? = none
  finite : x.isComplexInfinity = false
  operands : x.operands c.op = [x]

/-- Parts that a tree in normal form may have. -/
def Valid (c : Fold) : Parts → Prop
  | .infinite => True
  | .finite q others =>
    Number.Fits q ∧ (∀ x ∈ others, c.IsTerm x) ∧ c.settle q others = .finite q others

/-- A tree in normal form, and what it is told by. -/
structure HasParts (c : Fold) (a : Tree) (P : Parts) : Prop where
  valid : c.Valid P
  eq_tree : a = c.tree P

theorem mergeAll_singleton (h : c.Valid P) : c.mergeAll [P] = P := by
  show c.merge P (.finite c.unit []) = P
  cases P with
  | infinite => rfl
  | finite q xs =>
    rw [merge, c.join_unit, List.append_nil]
    exact h.2.2

theorem fits_unit (c : Fold) : Number.Fits (c.unit : ℚ) := by
  cases c with
  | sum => exact (by decide : Number.Fits (0 : ℚ))
  | product => exact (by decide : Number.Fits (1 : ℚ))

/-- The tree of a fraction. -/
def fraction (q : ℚ) : Tree := .number (.exact q)

theorem total_singleton (c : Fold) (q : ℚ) : c.total [q] = q := c.join_unit q

theorem numeric?_fraction (h : Number.Fits q) : (fraction q).numeric? = some (.exact q) :=
  Literal.toNumber?_ofNumber (.exact q (.inr h))

theorem isComplexInfinity_fraction (h : Number.Fits q) :
    (fraction q).isComplexInfinity = false := by
  refine beq_eq_false_iff_ne.mpr fun hl => ?_
  have hn := numeric?_fraction h
  rw [fraction, Tree.number, hl] at hn
  cases hn

/-- **The arguments that parts are flattened to**: one number at most, and the others. -/
theorem operands_tree (h : c.Valid (.finite q xs)) :
    ∃ qs : List ℚ, (c.tree (.finite q xs)).operands c.op = qs.map fraction ++ xs ∧
      (∀ q ∈ qs, Number.Fits q) ∧ qs.length ≤ 1 ∧ c.total qs = q := by
  obtain ⟨hfits, hterms, _⟩ := h
  have hnumber : Tree.number (.ofRat q) = fraction q := by rw [Number.ofRat_of_fits hfits]; rfl
  have hall : ∀ q' ∈ [q], Number.Fits q' := List.forall_mem_singleton.mpr hfits
  cases xs with
  | nil =>
    refine ⟨[q], ?_, hall, Nat.le_refl 1, c.total_singleton q⟩
    show (Tree.number (.ofRat q)).operands c.op = _
    rw [hnumber]
    rfl
  | cons x xs =>
    by_cases hq : q = c.unit
    · refine ⟨[], ?_, nofun, Nat.zero_le 1, hq.symm⟩
      rw [tree, if_pos hq]
      cases xs with
      | nil => exact (hterms x List.mem_cons_self).operands
      | cons y ys => exact if_pos rfl
    · refine ⟨[q], ?_, hall, Nat.le_refl 1, c.total_singleton q⟩
      rw [tree, if_neg hq, Tree.combine_some, hnumber]
      exact if_pos rfl

/-! ## 3. Joining trees -/

/-- What becomes of the folded numbers and the other arguments. -/
def finish (c : Fold) (coefficient : Option Number) (others : List Tree) : Tree :=
  match c with
  | sum => .combine .add (coefficient.filter (!·.isZero)) others (coefficient.getD .zero)
  | product =>
    if coefficient.any Number.isZero then .number .zero
    else .combine .mul (coefficient.filter (!·.isOne)) others (coefficient.getD .one)

theorem build_pair (c : Fold) (a b : Tree) :
    c.build [a, b] =
      if (a.operands c.op ++ b.operands c.op).any Tree.isComplexInfinity then
        .literal .complexInfinity
      else c.finish
        (Table.foldNumbers c.onNumbers
          ((a.operands c.op ++ b.operands c.op).filterMap Tree.numeric?))
        ((a.operands c.op ++ b.operands c.op).filter fun x => x.numeric?.isNone) := by
  have hflat (op : Operator) :
      [a, b].flatMap (Tree.operands op) = a.operands op ++ b.operands op := by
    simp
  cases c with
  | sum =>
    show Tree.sum [a, b] = _
    rw [Tree.sum, hflat]
    rfl
  | product =>
    show Tree.product [a, b] = _
    rw [Tree.product, hflat]
    rfl

/-- A coefficient that goes without saying is dropped, and no other. -/
theorem filter_ofRat {drops : Number → Bool} {u : ℚ} (h : drops (.ofRat q) = true ↔ q = u) :
    (some (Number.ofRat q)).filter (!drops ·) = if q = u then none else some (.ofRat q) := by
  by_cases hq : q = u
  · rw [if_pos hq]
    simp [h.mpr hq]
  · rw [if_neg hq]
    simp [mt h.mp hq]

/-- Numbers that cancel, and a zero among factors, leave what the parts say. -/
theorem finish_eq (c : Fold) {coefficient : Option Number}
    (h : coefficient = none ∧ q = c.unit ∨ coefficient = some (.ofRat q))
    (hzero : (Number.ofRat q).isZero = true ↔ q = 0) (xs : List Tree) :
    c.finish coefficient xs = c.tree (c.settle q xs) := by
  rcases h with ⟨rfl, rfl⟩ | rfl
  · rw [settle_unit, tree, if_pos rfl]
    cases c with
    | sum => exact congrArg (Tree.combine .add none xs) Number.ofRat_zero.symm
    | product => exact congrArg (Tree.combine .mul none xs) Number.ofRat_one.symm
  · cases c with
    | sum => exact congrArg (Tree.combine .add · xs (.ofRat q)) (filter_ofRat hzero)
    | product =>
      rw [finish, Option.any_some]
      by_cases hq : q = 0
      · rw [if_pos (hzero.mpr hq), settle, if_pos hq]
        exact congrArg Tree.number Number.ofRat_zero.symm
      · rw [if_neg (mt hzero.mp hq), settle, if_neg hq]
        exact congrArg (Tree.combine .mul · xs (.ofRat q)) (filter_ofRat (Number.isOne_ofRat q))

/-- A coefficient that left no double behind fits. -/
theorem fits_of_tree (h : (c.tree (.finite q xs)).Only Literal.IsExact) : Number.Fits q := by
  by_cases hq : q = c.unit
  · rw [hq]
    exact c.fits_unit
  · rw [tree, if_neg hq] at h
    cases xs with
    | nil => exact Tree.fits_of_isExact h
    | cons x xs =>
      rw [Tree.combine_some] at h
      exact Tree.fits_of_isExact (Tree.only_operation.mp h _ List.mem_cons_self)

theorem valid_settle (hterms : ∀ x ∈ xs, c.IsTerm x)
    (h : (c.tree (c.settle q xs)).Only Literal.IsExact) : c.Valid (c.settle q xs) := by
  rcases c.settle_cases q xs with hs | ⟨rfl, rfl, hs⟩
  · rw [hs] at h ⊢
    exact ⟨fits_of_tree h, hterms, hs⟩
  · rw [hs]
    exact ⟨by decide, nofun, rfl⟩

theorem filterMap_fractions {qs : List ℚ} (hq : ∀ q ∈ qs, Number.Fits q) :
    (qs.map fraction).filterMap Tree.numeric? = qs.map .exact := by
  rw [List.filterMap_map, ← List.filterMap_eq_map]
  exact List.filterMap_congr fun q hm => numeric?_fraction (hq q hm)

theorem filterMap_terms (h : ∀ x ∈ xs, c.IsTerm x) : xs.filterMap Tree.numeric? = [] :=
  List.filterMap_eq_nil_iff.mpr fun x hx => (h x hx).not_numeric

theorem filter_fractions {qs : List ℚ} (hq : ∀ q ∈ qs, Number.Fits q) :
    (qs.map fraction).filter (fun x => x.numeric?.isNone) = [] := by
  refine List.filter_eq_nil_iff.mpr fun x hx => ?_
  obtain ⟨q, hm, rfl⟩ := List.mem_map.mp hx
  rw [numeric?_fraction (hq q hm)]
  exact Bool.false_ne_true

theorem filter_terms (h : ∀ x ∈ xs, c.IsTerm x) :
    xs.filter (fun x => x.numeric?.isNone) = xs :=
  List.filter_eq_self.mpr fun x hx => by rw [(h x hx).not_numeric]; rfl

theorem any_flattened {qs : List ℚ} (hq : ∀ q ∈ qs, Number.Fits q) (h : ∀ x ∈ xs, c.IsTerm x) :
    (qs.map fraction ++ xs).any Tree.isComplexInfinity = false := by
  refine List.any_eq_false.mpr fun x hx => ?_
  rcases List.mem_append.mp hx with hx | hx
  · obtain ⟨q, hm, rfl⟩ := List.mem_map.mp hx
    rw [isComplexInfinity_fraction (hq q hm)]
    exact Bool.false_ne_true
  · rw [(h x hx).finite]
    exact Bool.false_ne_true

/-- The infinity takes everything with it. -/
theorem build_infinite (c : Fold)
    (h : a = .literal .complexInfinity ∨ b = .literal .complexInfinity) :
    c.build [a, b] = .literal .complexInfinity := by
  rw [build_pair, if_pos]
  rw [List.any_append, Bool.or_eq_true]
  rcases h with rfl | rfl
  · exact .inl rfl
  · exact .inr rfl

/-- **Joining trees joins their parts**, if no double arises. -/
theorem HasParts.build (ha : c.HasParts a P) (hb : c.HasParts b Q)
    (he : (c.build [a, b]).Only Literal.IsExact) : c.HasParts (c.build [a, b]) (c.merge P Q) := by
  obtain ⟨hP, ha⟩ := ha
  obtain ⟨hQ, hb⟩ := hb
  cases P with
  | infinite => exact ⟨trivial, c.build_infinite (.inl ha)⟩
  | finite p xs =>
    cases Q with
    | infinite =>
      rw [merge_infinite]
      exact ⟨trivial, c.build_infinite (.inr hb)⟩
    | finite q ys =>
      obtain ⟨ps, hps, hpsFits, hpsLength, hp⟩ := operands_tree hP
      obtain ⟨qs, hqs, hqsFits, hqsLength, hq⟩ := operands_tree hQ
      have hxs := hP.2.1
      have hys := hQ.2.1
      have hfits : ∀ r ∈ ps ++ qs, Number.Fits r := List.forall_mem_append.mpr ⟨hpsFits, hqsFits⟩
      have hterms : ∀ x ∈ xs ++ ys, c.IsTerm x := List.forall_mem_append.mpr ⟨hxs, hys⟩
      have hinf : ((ps.map fraction ++ xs) ++ (qs.map fraction ++ ys)).any Tree.isComplexInfinity =
          false := by
        rw [List.any_append, any_flattened hpsFits hxs, any_flattened hqsFits hys]
        rfl
      have hnumbers : ((ps.map fraction ++ xs) ++ (qs.map fraction ++ ys)).filterMap Tree.numeric? =
          (ps ++ qs).map .exact := by
        simp only [List.filterMap_append, filterMap_fractions hpsFits, filterMap_fractions hqsFits,
          filterMap_terms hxs, filterMap_terms hys, List.append_nil, List.map_append]
      have hothers : ((ps.map fraction ++ xs) ++ (qs.map fraction ++ ys)).filter
          (fun x => x.numeric?.isNone) = xs ++ ys := by
        simp only [List.filter_append, filter_fractions hpsFits, filter_fractions hqsFits,
          filter_terms hxs, filter_terms hys, List.nil_append]
      have htotal : c.total (ps ++ qs) = c.join p q := by rw [c.total_append, hp, hq]
      obtain ⟨hfold, hzero⟩ := c.foldNumbers_exact hfits
        (by rw [List.length_append]; omega)
      rw [htotal] at hfold hzero
      have hbuild : c.build [a, b] = c.tree (c.settle (c.join p q) (xs ++ ys)) := by
        rw [build_pair, ha, hb, hps, hqs, hinf, hnumbers, hothers]
        exact c.finish_eq hfold hzero (xs ++ ys)
      rw [hbuild] at he ⊢
      exact ⟨valid_settle hterms he, rfl⟩

/-! ## 4. Parts of a tree -/

/-- What normal form says of a sum or a product: two arguments at least, none of them flattened or
    infinite, and one number at most, which stands first and does not go without saying. -/
structure FlatArgs (c : Fold) (args : List Tree) : Prop where
  two : 2 ≤ args.length
  finite : ∀ x ∈ args, x.isComplexInfinity = false
  operands : ∀ x ∈ args, x.operands c.op = [x]
  others : ∀ x ∈ args.tail, x.numeric? = none
  coefficient : ∀ x ∈ args, ∀ n, x.numeric? = some n → c.op.absorbs n = false

/-- A tree that, if it is a sum or a product, is a flat one. -/
def IsFlat (c : Fold) (a : Tree) : Prop := ∀ args, a = .operation c.op args → c.FlatArgs args

/-- The rational number of a fraction. -/
def toRat : Number → ℚ
  | .rational numer denom => numer / denom
  | .float _ => 0

theorem toRat_exact (q : ℚ) : toRat (.exact q) = q := Rat.num_div_den q

/-- The parts of a tree in normal form. -/
def partsOf (c : Fold) (a : Tree) : Parts :=
  if a.isComplexInfinity then .infinite
  else .finite (c.total (((a.operands c.op).filterMap Tree.numeric?).map toRat))
    ((a.operands c.op).filter fun x => x.numeric?.isNone)

theorem partsOf_of_operands (qs : List ℚ) (hinf : a.isComplexInfinity = false)
    (h : a.operands c.op = qs.map fraction ++ xs) (hq : ∀ q ∈ qs, Number.Fits q)
    (hx : ∀ x ∈ xs, c.IsTerm x) : c.partsOf a = .finite (c.total qs) xs := by
  have hrat : (qs.map Number.exact).map toRat = qs := by
    rw [List.map_map]
    exact (List.map_congr_left fun q _ => toRat_exact q).trans (List.map_id qs)
  rw [partsOf, hinf, if_neg Bool.false_ne_true, h, List.filterMap_append, filterMap_fractions hq,
    filterMap_terms hx, List.append_nil, hrat, List.filter_append, filter_fractions hq,
    filter_terms hx, List.nil_append]

theorem settle_nil (c : Fold) (q : ℚ) : c.settle q [] = .finite q [] := by
  rcases c.settle_cases q [] with h | ⟨_, rfl, h⟩
  · exact h
  · exact h

/-- A coefficient that does not go without saying is neither neutral nor a zero among factors. -/
theorem settle_of_absorbs (h : c.op.absorbs (.exact q) = false) (xs : List Tree) :
    q ≠ c.unit ∧ c.settle q xs = .finite q xs := by
  cases c with
  | sum =>
    refine ⟨fun hq => ?_, rfl⟩
    have hzero : (Number.exact q).isZero = false := h
    rw [(Number.isZero_exact q).mpr hq] at hzero
    cases hzero
  | product =>
    have hboth : ((Number.exact q).isZero || (Number.exact q).isOne) = false := h
    obtain ⟨hzero, hone⟩ := Bool.or_eq_false_iff.mp hboth
    refine ⟨fun hq => ?_, if_neg fun hq => ?_⟩
    · rw [(Number.isOne_exact q).mpr hq] at hone
      cases hone
    · rw [(Number.isZero_exact q).mpr hq] at hzero
      cases hzero

theorem hasParts_fraction (hq : Number.Fits q) : c.HasParts (fraction q) (.finite q []) := by
  refine ⟨⟨hq, nofun, c.settle_nil q⟩, ?_⟩
  show fraction q = Tree.number (.ofRat q)
  rw [Number.ofRat_of_fits hq]
  rfl

/-- Arguments without a number. -/
theorem hasParts_terms (h : ∀ x ∈ xs, c.IsTerm x) :
    c.HasParts (.combine c.op none xs (.ofRat c.unit)) (.finite c.unit xs) := by
  refine ⟨⟨c.fits_unit, h, c.settle_unit xs⟩, ?_⟩
  rw [tree, if_pos rfl]

/-- A sum or a product with a number. -/
theorem hasParts_coefficient {x : Tree} (hq : Number.Fits q)
    (habsorbs : c.op.absorbs (.exact q) = false) (h : ∀ z ∈ x :: xs, c.IsTerm z) :
    c.HasParts (.operation c.op (fraction q :: x :: xs)) (.finite q (x :: xs)) := by
  obtain ⟨hne, hsettle⟩ := settle_of_absorbs habsorbs (x :: xs)
  refine ⟨⟨hq, h, hsettle⟩, ?_⟩
  rw [tree, if_neg hne, Tree.combine_some, Number.ofRat_of_fits hq]
  rfl

theorem operands_of_ne (op : Operator) (h : ∀ args, a ≠ .operation op args) :
    a.operands op = [a] := by
  cases a with
  | symbol name => rfl
  | literal value => rfl
  | operation inner args => exact if_neg fun hop => h args (by rw [hop])

/-- **A tree in normal form has parts.** -/
theorem hasParts_partsOf (hflat : c.IsFlat a) (hw : a.Only Literal.WellFormed)
    (he : a.Only Literal.IsExact) : c.HasParts a (c.partsOf a) := by
  cases hinf : a.isComplexInfinity with
  | true =>
    cases a with
    | literal value =>
      obtain rfl : value = .complexInfinity := by simpa [Tree.isComplexInfinity] using hinf
      exact ⟨trivial, rfl⟩
    | symbol name => cases hinf
    | operation op args => cases hinf
  | false =>
    by_cases hop : ∃ args, a = .operation c.op args
    · obtain ⟨args, rfl⟩ := hop
      obtain ⟨htwo, hfinite, hoperands, hothers, hcoefficient⟩ := hflat args rfl
      have hargs : (Tree.operation c.op args).operands c.op = args := if_pos rfl
      match args, htwo with
      | x :: y :: xs, _ =>
        have hterm : ∀ z ∈ x :: y :: xs, z.numeric? = none → c.IsTerm z := fun z hz hn =>
          ⟨hn, hfinite z hz, hoperands z hz⟩
        have hrest : ∀ z ∈ y :: xs, c.IsTerm z := fun z hz =>
          hterm z (List.mem_cons_of_mem _ hz) (hothers z hz)
        cases hx : x.numeric? with
        | none =>
          have hall := List.forall_mem_cons.mpr ⟨hterm x List.mem_cons_self hx, hrest⟩
          rw [partsOf_of_operands [] hinf hargs nofun hall]
          exact hasParts_terms hall
        | some n =>
          have hwx := Tree.only_operation.mp hw x List.mem_cons_self
          have hex := Tree.only_operation.mp he x List.mem_cons_self
          obtain ⟨q, hq, rfl, rfl⟩ := Tree.exists_fraction hwx hex hx
          rw [partsOf_of_operands [q] hinf hargs (List.forall_mem_singleton.mpr hq) hrest,
            c.total_singleton]
          exact hasParts_coefficient hq (hcoefficient _ List.mem_cons_self _ hx) hrest
    · have hself := operands_of_ne c.op fun args ha => hop ⟨args, ha⟩
      cases hn : a.numeric? with
      | none =>
        have hterm : ∀ x ∈ [a], c.IsTerm x := List.forall_mem_singleton.mpr ⟨hn, hinf, hself⟩
        rw [partsOf_of_operands [] hinf hself nofun hterm]
        exact hasParts_terms hterm
      | some n =>
        obtain ⟨q, hq, rfl, rfl⟩ := Tree.exists_fraction hw he hn
        rw [partsOf_of_operands [q] hinf hself (List.forall_mem_singleton.mpr hq) nofun,
          c.total_singleton]
        exact hasParts_fraction hq

end Fold

end FormulaGraph
