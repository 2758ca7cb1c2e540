/-
  File:      FormulaGraph/Proofs/Grouping/Literals.lean
  Subject:   The literals of an expression.

  Whatever a builder writes down is a number that arithmetic gave, and such numbers are well formed;
  so only the integers of the formula itself could lead out of the 64 bits. Doubles may arise, but
  not without standing in the table.

  * `Tree.literals`, `Tree.Only` -- the literals of a tree, and trees with literals of one kind;
  * `Literal.WellFormed` -- the constants and the well-formed numbers;
  * `Formula.wellFormed_expression` -- the tree of a formula has no other literals;
  * `Table.only_isExact` -- in a table without doubles no tree has one;
  * `Tree.exists_fraction` -- then every number that could be folded is a fraction.
-/
import FormulaGraph.Proofs.History.Expression
import FormulaGraph.Proofs.Meaning.Canonical

namespace FormulaGraph

/-! ## 1. Literals of a tree -/

namespace Tree

mutual
/-- The literals of a tree, from left to right. -/
def literals : Tree → List Literal
  | symbol _ => []
  | literal value => [value]
  | operation _ args => literalsAll args

/-- The literals of some trees, one after the other. -/
def literalsAll : List Tree → List Literal
  | [] => []
  | a :: as => a.literals ++ literalsAll as
end

/-- All literals of a tree are of one kind. -/
def Only (P : Literal → Prop) (tree : Tree) : Prop := ∀ l ∈ tree.literals, P l

instance (P : Literal → Prop) [DecidablePred P] (tree : Tree) : Decidable (tree.Only P) :=
  inferInstanceAs (Decidable (∀ l ∈ tree.literals, P l))

variable {P : Literal → Prop} {op : Operator} {args : List Tree}

theorem mem_literalsAll {l : Literal} : l ∈ literalsAll args ↔ ∃ a ∈ args, l ∈ a.literals := by
  induction args with
  | nil => simp [literalsAll]
  | cons a args ih => simp [literalsAll, ih]

theorem only_symbol (name : String) : (symbol name).Only P := nofun

theorem only_literal {l : Literal} : (literal l).Only P ↔ P l := by
  simp [Only, literals]

theorem only_operation : (operation op args).Only P ↔ ∀ a ∈ args, a.Only P := by
  simp only [Only, literals, mem_literalsAll]
  exact ⟨fun h a ha l hl => h l ⟨a, ha, hl⟩, fun h l ⟨a, ha, hl⟩ => h a ha l hl⟩

theorem only_pair {a b : Tree} (ha : a.Only P) (hb : b.Only P) : ∀ x ∈ [a, b], x.Only P :=
  List.forall_mem_cons.mpr ⟨ha, List.forall_mem_singleton.mpr hb⟩

theorem Only.operands {tree : Tree} (h : tree.Only P) (op : Operator) :
    ∀ a ∈ tree.operands op, a.Only P := by
  intro a ha
  cases tree with
  | symbol name => rwa [List.mem_singleton.mp ha]
  | literal value => rwa [List.mem_singleton.mp ha]
  | operation inner args =>
    have ha : a ∈ if inner = op then args else [operation inner args] := ha
    by_cases hop : inner = op
    · rw [if_pos hop] at ha
      exact only_operation.mp h a ha
    · rw [if_neg hop] at ha
      rwa [List.mem_singleton.mp ha]

theorem only_flattened (h : ∀ a ∈ args, a.Only P) (op : Operator) :
    ∀ a ∈ args.flatMap (operands op), a.Only P := by
  intro a ha
  obtain ⟨outer, ho, ha⟩ := List.mem_flatMap.mp ha
  exact (h outer ho).operands op a ha

end Tree

/-! ## 2. Well-formed literals -/

/-- A constant that is never folded, or a well-formed number in its one form. -/
def Literal.WellFormed (l : Literal) : Prop :=
  l = .pi ∨ l = .exp1 ∨ l = .complexInfinity ∨ ∃ n : Number, n.WellFormed ∧ l = .ofNumber n

theorem Literal.wellFormed_complexInfinity : Literal.WellFormed .complexInfinity :=
  .inr (.inr (.inl rfl))

namespace Tree

open Literal (WellFormed)

variable {n : Number} {args : List Tree} {a b tree : Tree} {span : Span}

theorem wellFormed_number (h : n.WellFormed) : (number n).Only WellFormed :=
  only_literal.mpr (.inr (.inr (.inr ⟨n, h, rfl⟩)))

theorem wellFormed_infinity : (literal .complexInfinity).Only WellFormed :=
  only_literal.mpr Literal.wellFormed_complexInfinity

/-- A number that can be folded is well formed, and is written in its one form. -/
theorem Only.numeric (h : tree.Only WellFormed) (hn : tree.numeric? = some n) :
    n.WellFormed ∧ tree = number n := by
  cases tree with
  | symbol name => cases hn
  | operation op args => cases hn
  | literal l =>
    have hn : l.toNumber? = some n := hn
    rcases only_literal.mp h with rfl | rfl | rfl | ⟨m, hm, rfl⟩
    · cases hn
    · cases hn
    · cases hn
    · obtain rfl : m = n := Option.some.inj ((Literal.toNumber?_ofNumber hm.settled).symm.trans hn)
      exact ⟨hm, rfl⟩

/-- Folding numbers gives a number that arithmetic gave, or the only one there was. -/
theorem wellFormed_foldNumbers {f : Number → Number → Number} (hf : ∀ x y, (f x y).WellFormed)
    (h : ∀ a ∈ args, a.Only WellFormed) :
    ∀ c, Table.foldNumbers f (args.filterMap numeric?) = some c → c.WellFormed := by
  intro c hc
  have hfold : ∀ (ns : List Number) (n : Number), n.WellFormed → (ns.foldl f n).WellFormed := by
    intro ns
    induction ns with
    | nil => exact fun n hn => hn
    | cons m ns ih => exact fun n _ => ih (f n m) (hf n m)
  cases hns : args.filterMap numeric? with
  | nil =>
    rw [hns] at hc
    cases hc
  | cons n ns =>
    rw [hns] at hc
    cases hc
    obtain ⟨a, ha, hn⟩ := List.mem_filterMap.mp (hns ▸ List.mem_cons_self)
    exact hfold ns n ((h a ha).numeric hn).1

theorem wellFormed_combine {op : Operator} {coefficient : Option Number} {alone : Number}
    (h : ∀ a ∈ args, a.Only WellFormed) (hc : ∀ c, coefficient = some c → c.WellFormed)
    (halone : alone.WellFormed) : (combine op coefficient args alone).Only WellFormed := by
  unfold combine
  split
  · exact wellFormed_number halone
  · exact h _ (List.mem_singleton_self _)
  · exact only_operation.mpr h
  · exact only_operation.mpr (List.forall_mem_cons.mpr ⟨wellFormed_number (hc _ rfl), h⟩)

theorem wellFormed_sum (h : ∀ a ∈ args, a.Only WellFormed) : (sum args).Only WellFormed := by
  have hflat := only_flattened h .add
  have hfold := wellFormed_foldNumbers Number.add_wellFormed hflat
  unfold sum
  dsimp only
  split
  · exact wellFormed_infinity
  · refine wellFormed_combine (fun a ha => hflat a (List.mem_of_mem_filter ha))
      (fun c hc => hfold c (Option.filter_eq_some_iff.mp hc).1)
      (Number.getD_wellFormed hfold (by decide))

theorem wellFormed_product (h : ∀ a ∈ args, a.Only WellFormed) :
    (product args).Only WellFormed := by
  have hflat := only_flattened h .mul
  have hfold := wellFormed_foldNumbers Number.mul_wellFormed hflat
  unfold product
  dsimp only
  split
  · exact wellFormed_infinity
  · split
    · exact wellFormed_number (by decide)
    · refine wellFormed_combine (fun a ha => hflat a (List.mem_of_mem_filter ha))
        (fun c hc => hfold c (Option.filter_eq_some_iff.mp hc).1)
        (Number.getD_wellFormed hfold (by decide))

theorem wellFormed_foldedPower {base exponent : Number}
    (h : foldedPower base exponent = .ok (some tree)) : tree.Only WellFormed := by
  unfold foldedPower at h
  split at h
  · cases h
    exact wellFormed_infinity
  · obtain ⟨n?, hn, h⟩ := bind_ok_iff.mp h
    obtain ⟨n, rfl, rfl⟩ := Option.map_eq_some_iff.mp (Except.ok.inj h)
    exact wellFormed_number (Number.pow?_wellFormed hn)

theorem wellFormed_power (ha : a.Only WellFormed) (hb : b.Only WellFormed)
    (h : power a b = .ok tree) : tree.Only WellFormed := by
  unfold power at h
  dsimp only at h
  split at h
  · cases h
    exact ha
  · split at h
    · cases h
      exact wellFormed_number (by decide)
    · split at h
      · obtain ⟨folded, hf, h⟩ := bind_ok_iff.mp h
        cases folded with
        | none =>
          cases h
          exact only_operation.mpr (only_pair ha hb)
        | some folded =>
          cases h
          exact wellFormed_foldedPower hf
      · cases h
        exact only_operation.mpr (only_pair ha hb)

theorem wellFormed_remainder (ha : a.Only WellFormed) (hb : b.Only WellFormed)
    (h : remainder a b span = .ok tree) : tree.Only WellFormed := by
  unfold remainder at h
  split at h
  · rename_i result hr
    cases h
    unfold remainder? at hr
    split at hr
    · obtain ⟨n, hn, rfl⟩ := Option.map_eq_some_iff.mp hr
      exact wellFormed_number (Number.modulo?_wellFormed hn)
    · cases hr
      exact only_operation.mpr (only_pair ha hb)
  · cases h

theorem wellFormed_minusOne : (number (.ofInt (-1))).Only WellFormed :=
  wellFormed_number (by decide)

theorem wellFormed_negate (h : a.Only WellFormed) : a.negate.Only WellFormed :=
  wellFormed_product (only_pair wellFormed_minusOne h)

theorem wellFormed_reciprocal (ha : a.Only WellFormed) (h : a.reciprocal = .ok tree) :
    tree.Only WellFormed := wellFormed_power ha wellFormed_minusOne h

theorem wellFormed_name (name : String) : (Tree.name name).Only WellFormed := by
  unfold Tree.name
  split
  · exact only_literal.mpr (.inl rfl)
  · exact only_literal.mpr (.inr (.inl rfl))
  · exact wellFormed_infinity
  · exact only_symbol name

theorem wellFormed_binary {op : BinaryOp} (ha : a.Only WellFormed) (hb : b.Only WellFormed)
    (h : binary op a b span = .ok tree) : tree.Only WellFormed := by
  cases op with
  | add =>
    cases h
    exact wellFormed_sum (only_pair ha hb)
  | subtract =>
    cases h
    exact wellFormed_sum (only_pair ha (wellFormed_negate hb))
  | multiply =>
    cases h
    exact wellFormed_product (only_pair ha hb)
  | divide =>
    obtain ⟨right, hr, h⟩ := bind_ok_iff.mp h
    cases h
    exact wellFormed_product
      (only_pair ha (wellFormed_reciprocal hb (mapError_ok_iff.mp hr)))
  | modulo => exact wellFormed_remainder ha hb h
  | power => exact wellFormed_power ha hb (mapError_ok_iff.mp h)

theorem wellFormed_call {op : Operator} (hargs : ∀ a ∈ args, a.Only WellFormed)
    (h : call op args span = .ok tree) : tree.Only WellFormed := by
  unfold call at h
  split at h
  · rename_i x base
    have hlog (arg : Tree) (harg : arg ∈ [x, base]) : (operation .log [arg]).Only WellFormed :=
      only_operation.mpr (List.forall_mem_singleton.mpr (hargs arg harg))
    obtain ⟨below, hr, h⟩ := bind_ok_iff.mp h
    cases h
    exact wellFormed_product (only_pair (hlog x (by simp))
      (wellFormed_reciprocal (hlog base (by simp)) (mapError_ok_iff.mp hr)))
  · cases h
    exact hargs _ (List.mem_singleton_self _)
  · cases h
    exact hargs _ (List.mem_singleton_self _)
  · exact wellFormed_remainder (hargs _ (by simp)) (hargs _ (by simp)) h
  · cases h
    exact only_operation.mpr hargs

end Tree

namespace Formula

open Literal (WellFormed)

/-- Whether a leaf that is an integer lies within 64 bits. -/
def isWordLeaf : Formula → Bool
  | integer value _ => fitsBits 64 value
  | _ => true

/-- Whether all integers of a formula lie within 64 bits. -/
def hasWords (f : Formula) : Bool := f.leaves.all isWordLeaf

mutual
/-- **Lowering writes no literal that is not well formed**, given that the formula has none. -/
theorem wellFormed_expression : ∀ (f : Formula) {tree : Tree}, f.leaves.all isWordLeaf = true →
    f.expression = .ok tree → tree.Only WellFormed
  | integer value _, _, hw, h => by
      cases h
      have hfits : fitsBits 64 value = true := by simpa [leaves, isWordLeaf] using hw
      refine Tree.wellFormed_number ?_
      rw [← Number.ofRat_intCast hfits]
      exact Number.wellFormed_ofRat value
  | float value _, _, _, h => by
      cases h
      exact Tree.only_literal.mpr (.inr (.inr (.inr ⟨.float (.ofFloat value), trivial, rfl⟩)))
  | symbol name _, _, _, h => by
      cases h
      exact Tree.wellFormed_name name
  | binary op left right span, _, hw, h => by
      obtain ⟨hl, hr⟩ : left.leaves.all isWordLeaf = true ∧ right.leaves.all isWordLeaf = true := by
        simpa [leaves] using hw
      obtain ⟨a, ha, h⟩ := bind_ok_iff.mp h
      obtain ⟨b, hb, h⟩ := bind_ok_iff.mp h
      exact Tree.wellFormed_binary (wellFormed_expression left hl ha)
        (wellFormed_expression right hr hb) h
  | negative operand _, _, hw, h => by
      obtain ⟨a, ha, h⟩ := bind_ok_iff.mp h
      cases h
      exact Tree.wellFormed_negate (wellFormed_expression operand hw ha)
  | call name arguments span, tree, hw, h => by
      have h : (if (Operator.ofCall name).2.accepts arguments.length then
          expressions arguments >>= fun args => Tree.call (Operator.ofCall name).1 args span
          else .error (.refused
            (.wrongArity name (Operator.ofCall name).2 arguments.length span))) = .ok tree := h
      split at h
      · obtain ⟨args, hargs, h⟩ := bind_ok_iff.mp h
        exact Tree.wellFormed_call (wellFormed_expressions arguments hw hargs) h
      · cases h
  | group inner _, _, hw, h => wellFormed_expression inner hw h

theorem wellFormed_expressions : ∀ (fs : List Formula) {trees : List Tree},
    (leavesAll fs).all isWordLeaf = true → expressions fs = .ok trees →
    ∀ a ∈ trees, a.Only WellFormed
  | [], _, _, h => by
      cases h
      exact nofun
  | f :: fs, _, hw, h => by
      obtain ⟨hf, hfs⟩ : f.leaves.all isWordLeaf = true ∧ (leavesAll fs).all isWordLeaf = true := by
        simpa [leavesAll] using hw
      obtain ⟨a, ha, h⟩ := bind_ok_iff.mp h
      obtain ⟨as, has, h⟩ := bind_ok_iff.mp h
      cases h
      exact List.forall_mem_cons.mpr
        ⟨wellFormed_expression f hf ha, wellFormed_expressions fs hfs has⟩
end

end Formula

/-! ## 3. Without doubles -/

/-- No double. -/
def Literal.IsExact (l : Literal) : Prop := ∀ value, l ≠ .float value

instance : DecidablePred Literal.IsExact := fun l =>
  match l with
  | .float value => isFalse fun h => h value rfl
  | .integer _ | .rational .. | .zero | .one | .negativeOne | .half | .pi | .exp1
  | .complexInfinity => isTrue fun _ => by simp

/-- **In a table without doubles no tree has one.** -/
theorem Table.only_isExact {t : Table} (ho : t.Ordered) (hf : t.isFloatFree = true) {id : Nat}
    (hlt : id < t.size) : (t.tree id).Only Literal.IsExact := by
  induction id using Nat.strongRecOn with
  | ind id ih =>
    obtain ⟨node, hn⟩ := exists_node hlt
    have hfloat := not_isFloat hf hn
    rw [ho.tree_eq hn]
    cases node with
    | symbol name => exact Tree.only_symbol name
    | literal l =>
      refine Tree.only_literal.mpr fun value hl => ?_
      rw [hl] at hfloat
      cases hfloat
    | operation op args =>
      refine Tree.only_operation.mpr fun a ha => ?_
      obtain ⟨arg, harg, rfl⟩ := List.mem_map.mp ha
      have hbelow : arg < id := ho id _ hn arg harg
      exact ih arg hbelow (Nat.lt_trans hbelow hlt)

namespace Tree

variable {tree : Tree} {n : Number}

/-- The tree of a number has no double only if the number is a fraction that fits. -/
theorem fits_of_isExact {q : ℚ} (h : (number (.ofRat q)).Only Literal.IsExact) : Number.Fits q := by
  by_contra hq
  rw [Number.ofRat, if_neg hq] at h
  exact only_literal.mp h _ rfl

/-- **A number that could be folded is a fraction that fits.** -/
theorem exists_fraction (hw : tree.Only Literal.WellFormed) (he : tree.Only Literal.IsExact)
    (hn : tree.numeric? = some n) :
    ∃ q, Number.Fits q ∧ n = .exact q ∧ tree = number (.exact q) := by
  obtain ⟨hwell, rfl⟩ := hw.numeric hn
  cases n with
  | float value => exact absurd rfl (only_literal.mp he value)
  | rational numer denom =>
    obtain ⟨heq, hfits⟩ := hwell.eq_exact
    exact ⟨_, hfits, heq, congrArg number heq⟩

end Tree

end FormulaGraph
