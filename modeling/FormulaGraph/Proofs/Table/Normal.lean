/-
  File:      FormulaGraph/Proofs/Table/Normal.lean
  Subject:   Every node that reading formulas leaves behind is in normal form.

  A builder may rely on the form of the nodes it is given, since each of them came from a builder: a
  sum is flattened by one level only, and is flat all the same. So the form is stated for a whole
  table, together with what makes ids mean the same as the table grows, and is carried through each
  builder and each step of lowering. A lowering that fails leaves nodes too, in the same form.

  * `NormalNode`, `Normal` -- what is asked of a node, and of a table;
  * `Normal.combine`, `Normal.sum`, `Normal.product`, `Normal.power`, `Normal.remainder` -- the
    builders;
  * `Formula.lower_leaves` -- lowering keeps the form, also where it fails;
  * `normal_readAll` -- reading any texts, one after the other, into the empty table.
-/
import FormulaGraph.Proofs.Number.Literal
import FormulaGraph.Proofs.Table.Growth

namespace FormulaGraph

variable {t t' : Table} {id : Nat} {node : Node} {op : Operator} {args : List Nat}

/-! ## 1. Normal nodes -/

namespace Operator

/-- How many arguments an operation of the table has. A logarithm to a base is rewritten, and so is
    the minimum of a single node. -/
def nodeArity : Operator → Arity
  | add | mul | min | max => .atLeast 2
  | pow | mod | atan2 => .exactly 2
  | undefined _ => .atLeast 1
  | _ => .exactly 1

/-- The coefficients that a sum or a product is not left with. -/
def absorbs : Operator → Number → Bool
  | add, n => n.isZero
  | mul, n => n.isZero || n.isOne
  | _, _ => false

end Operator

namespace Table

/-- The arguments of a sum or a product: no further sum or product, no infinity, and one number at
    most, which stands first and does not go without saying. -/
structure Flat (t : Table) (op : Operator) (args : List Nat) : Prop where
  not_nested : ∀ arg ∈ args, ∀ inner, t.node? arg ≠ some (.operation op inner)
  finite : ∀ arg ∈ args, t.isComplexInfinity arg = false
  others : ∀ arg ∈ args.tail, t.numeric? arg = none
  coefficient : ∀ arg ∈ args, ∀ n, t.numeric? arg = some n → op.absorbs n = false

/-- A power that does not fold. -/
structure Unfolded (t : Table) (base exponent : Nat) : Prop where
  exponent_ne : ∀ e, t.numeric? exponent = some e → e.isZero = false ∧ e.isOne = false
  base_ne : ∀ b, t.numeric? base = some b → b.isOne = false
  numbers : ∀ b e, t.numeric? base = some b → t.numeric? exponent = some e →
    b.pow? e = .ok none ∧ ¬ (b.isZero = true ∧ e.isNegative = true)

/-- What normal form asks of an operation. -/
structure NormalOperation (t : Table) (op : Operator) (args : List Nat) : Prop where
  not_literal : op.isLiteral = false
  arity : op.nodeArity.accepts args.length = true
  flat : op = .add ∨ op = .mul → t.Flat op args
  power : ∀ base exponent, op = .pow → args = [base, exponent] → t.Unfolded base exponent
  remainder : ∀ a b, op = .mod → args = [a, b] → t.numeric? a = none ∨ t.numeric? b = none

/-- What normal form asks of a node. -/
def NormalNode (t : Table) : Node → Prop
  | .symbol _ => True
  | .literal value => value.IsNormal
  | .operation op args => t.NormalOperation op args

/-- A table in normal form. -/
structure Normal (t : Table) : Prop where
  ordered : t.Ordered
  indexed : t.Indexed
  nodes : ∀ id node, t.node? id = some node → t.NormalNode node

theorem normal_empty : empty.Normal where
  ordered id node hn := by simp [node?, empty] at hn
  indexed node id hl := by simp [empty] at hl
  nodes id node hn := by simp [node?, empty] at hn

theorem Normal.args_lt (h : t.Normal) (hn : t.node? id = some node) :
    ∀ arg ∈ node.args, arg < t.size := by
  intro arg ha
  exact Nat.lt_trans (h.ordered id node hn arg ha) (node?_eq_some_lt hn)

/-! ## 2. Growing -/

theorem Extends.isComplexInfinity_eq (he : t.Extends t') (hlt : id < t.size) :
    t'.isComplexInfinity id = t.isComplexInfinity id := by
  unfold isComplexInfinity
  rw [he.node?_eq hlt]

theorem Flat.extends (h : t.Flat op args) (he : t.Extends t') (hlt : ∀ arg ∈ args, arg < t.size) :
    t'.Flat op args where
  not_nested arg ha := by
    rw [he.node?_eq (hlt arg ha)]
    exact h.not_nested arg ha
  finite arg ha := by
    rw [he.isComplexInfinity_eq (hlt arg ha)]
    exact h.finite arg ha
  others arg ha := by
    rw [he.numeric?_eq (hlt arg (List.mem_of_mem_tail ha))]
    exact h.others arg ha
  coefficient arg ha := by
    rw [he.numeric?_eq (hlt arg ha)]
    exact h.coefficient arg ha

theorem NormalOperation.extends (h : t.NormalOperation op args) (he : t.Extends t')
    (hlt : ∀ arg ∈ args, arg < t.size) : t'.NormalOperation op args where
  not_literal := h.not_literal
  arity := h.arity
  flat hop := (h.flat hop).extends he hlt
  power base exponent hop ha := by
    have hkept := h.power base exponent hop ha
    subst ha
    have hb := he.numeric?_eq (hlt base (by simp))
    have hx := he.numeric?_eq (hlt exponent (by simp))
    exact ⟨hx ▸ hkept.exponent_ne, hb ▸ hkept.base_ne, hb ▸ hx ▸ hkept.numbers⟩
  remainder a b hop ha := by
    have hkept := h.remainder a b hop ha
    subst ha
    rw [he.numeric?_eq (hlt a (by simp)), he.numeric?_eq (hlt b (by simp))]
    exact hkept

theorem NormalNode.extends (h : t.NormalNode node) (he : t.Extends t')
    (hlt : ∀ arg ∈ node.args, arg < t.size) : t'.NormalNode node := by
  cases node with
  | symbol name => trivial
  | literal value => exact h
  | operation op args => exact NormalOperation.extends h he hlt

/-! ## 3. Builders -/

/-- What a builder gives: a table in normal form, and an id in it. -/
structure Yields (result : Nat × Table) : Prop where
  normal : result.2.Normal
  lt : result.1 < result.2.size

/-- **Interning a normal node keeps a table normal.** -/
theorem Normal.intern (h : t.Normal) (hn : t.NormalNode node)
    (hlt : ∀ arg ∈ node.args, arg < t.size) : Yields (t.intern node) where
  lt := node?_eq_some_lt (h.indexed.node?_intern node)
  normal :=
    { ordered := h.ordered.intern
        (List.all_eq_true.mpr fun arg ha => decide_eq_true (hlt arg ha))
      indexed := h.indexed.intern node
      nodes := by
        intro id other hother
        have he := extends_intern t node
        rcases node?_intern_cases hother with hold | rfl
        · exact (h.nodes id other hold).extends he (h.args_lt hold)
        · exact hn.extends he hlt }

theorem Normal.symbol (h : t.Normal) (name : String) : Yields (t.symbol name) :=
  h.intern trivial nofun

theorem Normal.literal {value : Literal} (h : t.Normal) (hv : value.IsNormal) :
    Yields (t.literal value) :=
  h.intern hv nofun

theorem Normal.number {n : Number} (h : t.Normal) (hn : n.Settled) : Yields (t.number n) :=
  h.literal (Literal.isNormal_ofNumber hn)

theorem Normal.operation (h : t.Normal) (ho : t.NormalOperation op args)
    (hlt : ∀ arg ∈ args, arg < t.size) : Yields (t.operation op args) :=
  h.intern ho hlt

/-- What a node stands for can be written down again. -/
theorem numeric?_settled {n : Number} (hn : t.numeric? id = some n) : n.Settled := by
  unfold numeric? at hn
  split at hn
  · exact Literal.toNumber?_settled hn
  · cases hn

/-- The node of a number stands for that number. -/
theorem Normal.numeric?_number {n : Number} (h : t.Normal) (hn : n.Settled) :
    (t.number n).2.numeric? (t.number n).1 = some n := by
  have hnode : (t.number n).2.node? (t.number n).1 = some (.literal (.ofNumber n)) :=
    h.indexed.node?_intern _
  unfold numeric?
  rw [hnode]
  exact Literal.toNumber?_ofNumber hn

/-- Flat arguments make a normal sum or product, if they are two. -/
theorem Flat.normalOperation (h : t.Flat op args) (hop : op = .add ∨ op = .mul)
    (hlen : 2 ≤ args.length) : t.NormalOperation op args := by
  rcases hop with rfl | rfl
  · exact ⟨rfl, decide_eq_true hlen, fun _ => h, nofun, nofun⟩
  · exact ⟨rfl, decide_eq_true hlen, fun _ => h, nofun, nofun⟩

/-- A coefficient may be put before arguments that are no numbers. -/
theorem Normal.flat_number {c : Number} (h : t.Normal) (hc : c.Settled)
    (habsorbs : op.absorbs c = false) (hflat : t.Flat op args)
    (hargs : ∀ arg ∈ args, t.numeric? arg = none) (hlt : ∀ arg ∈ args, arg < t.size) :
    (t.number c).2.Flat op ((t.number c).1 :: args) := by
  have he : t.Extends (t.number c).2 := extends_intern t _
  have hrest := hflat.extends he hlt
  have hnone : ∀ arg ∈ args, (t.number c).2.numeric? arg = none := by
    intro arg ha
    rw [he.numeric?_eq (hlt arg ha)]
    exact hargs arg ha
  have hnumber := h.numeric?_number hc
  have hnode : (t.number c).2.node? (t.number c).1 = some (.literal (.ofNumber c)) :=
    h.indexed.node?_intern _
  generalize t.number c = result at hrest hnone hnumber hnode ⊢
  obtain ⟨first, t₁⟩ := result
  -- the coefficient is a literal, and one that can be folded
  refine ⟨?_, ?_, hnone, ?_⟩
  · refine List.forall_mem_cons.mpr ⟨fun inner hn => ?_, hrest.not_nested⟩
    cases hnode.symm.trans hn
  · refine List.forall_mem_cons.mpr ⟨?_, hrest.finite⟩
    unfold isComplexInfinity
    refine beq_eq_false_iff_ne.mpr fun hn => ?_
    unfold numeric? at hnumber
    rw [hn] at hnumber
    cases hnumber
  · refine List.forall_mem_cons.mpr ⟨fun n hn => ?_, hrest.coefficient⟩
    obtain rfl := Option.some.inj (hnumber.symm.trans hn)
    exact habsorbs

/-- A sum or a product of flat arguments that are no numbers, and a coefficient. -/
theorem Normal.combine {coefficient : Option Number} {alone : Number} (h : t.Normal)
    (hop : op = .add ∨ op = .mul) (hflat : t.Flat op args)
    (hargs : ∀ arg ∈ args, t.numeric? arg = none) (hlt : ∀ arg ∈ args, arg < t.size)
    (hcoefficient : ∀ c, coefficient = some c → c.Settled ∧ op.absorbs c = false)
    (halone : alone.Settled) : Yields (t.combine op coefficient args alone) := by
  unfold Table.combine
  split
  · exact h.number halone
  · exact ⟨h, hlt _ (List.mem_singleton_self _)⟩
  · rename_i hnil hsingle
    refine h.operation (hflat.normalOperation hop ?_) hlt
    match args, hnil, hsingle with
    | [], hnil, _ => exact absurd rfl hnil
    | [single], _, hsingle => exact (hsingle single rfl).elim
    | _ :: _ :: _, _, _ => simp
  · rename_i c hnil
    obtain ⟨hc, habsorbs⟩ := hcoefficient c rfl
    have hfirst := h.number hc
    have he : t.Extends (t.number c).2 := extends_intern t _
    refine hfirst.normal.operation
      ((h.flat_number hc habsorbs hflat hargs hlt).normalOperation hop ?_) ?_
    · have hpos := List.length_pos_iff.mpr hnil
      simp only [List.length_cons]
      omega
    · intro arg ha
      rcases List.mem_cons.mp ha with rfl | ha
      · exact hfirst.lt
      · exact he.lt_size (hlt arg ha)

/-- **One level of flattening is enough**: what stands below a sum is no sum. -/
theorem Normal.operands (h : t.Normal) (hop : op = .add ∨ op = .mul) (hid : id < t.size) :
    ∀ arg ∈ t.operands op id,
      arg < t.size ∧ ∀ inner, t.node? arg ≠ some (.operation op inner) := by
  intro arg ha
  unfold Table.operands at ha
  split at ha
  · rename_i kind args hn
    split at ha
    · rename_i hkind
      subst hkind
      exact ⟨h.args_lt hn arg ha, ((h.nodes id _ hn).flat hop).not_nested arg ha⟩
    · rename_i hkind
      obtain rfl := List.mem_singleton.mp ha
      refine ⟨hid, fun inner hn' => hkind ?_⟩
      cases hn.symm.trans hn'
      rfl
  · rename_i hn
    obtain rfl := List.mem_singleton.mp ha
    exact ⟨hid, fun inner => hn op inner⟩

/-- Folding the numbers among nodes gives a number that can be written down. -/
theorem foldNumbers_settled {f : Number → Number → Number} (hf : ∀ x y, (f x y).Settled)
    (t : Table) (args : List Nat) (c : Number)
    (h : foldNumbers f (args.filterMap t.numeric?) = some c) : c.Settled := by
  have hfold : ∀ (ns : List Number) (n : Number), n.Settled → (ns.foldl f n).Settled := by
    intro ns
    induction ns with
    | nil => exact fun n hn => hn
    | cons m ns ih => exact fun n _ => ih (f n m) (hf n m)
  cases hns : args.filterMap t.numeric? with
  | nil =>
    rw [hns] at h
    cases h
  | cons n ns =>
    rw [hns] at h
    cases h
    have hn : n ∈ args.filterMap t.numeric? := hns ▸ List.mem_cons_self
    obtain ⟨arg, -, hn⟩ := List.mem_filterMap.mp hn
    exact hfold ns n (numeric?_settled hn)

/-- The arguments of a sum or a product after flattening, but for the numbers. -/
def terms (t : Table) (op : Operator) (args : List Nat) : List Nat :=
  (args.flatMap (t.operands op)).filter fun a => (t.numeric? a).isNone

theorem numeric?_of_mem_terms : ∀ arg ∈ t.terms op args, t.numeric? arg = none := by
  intro arg ha
  exact Option.isNone_iff_eq_none.mp (List.mem_filter.mp ha).2

theorem Normal.flat_terms (h : t.Normal) (hop : op = .add ∨ op = .mul)
    (hlt : ∀ arg ∈ args, arg < t.size)
    (hfinite : (args.flatMap (t.operands op)).any t.isComplexInfinity = false) :
    t.Flat op (t.terms op args) ∧ ∀ arg ∈ t.terms op args, arg < t.size := by
  have hall : ∀ arg ∈ t.terms op args,
      arg < t.size ∧ ∀ inner, t.node? arg ≠ some (.operation op inner) := by
    intro arg ha
    obtain ⟨outer, ho, ha⟩ := List.mem_flatMap.mp (List.mem_of_mem_filter ha)
    exact h.operands hop (hlt outer ho) arg ha
  refine ⟨⟨fun arg ha => (hall arg ha).2, ?_, ?_, ?_⟩, fun arg ha => (hall arg ha).1⟩
  · intro arg ha
    exact Bool.eq_false_iff.mpr (List.any_eq_false.mp hfinite arg (List.mem_of_mem_filter ha))
  · exact fun arg ha => numeric?_of_mem_terms arg (List.mem_of_mem_tail ha)
  · intro arg ha n hn
    rw [numeric?_of_mem_terms arg ha] at hn
    cases hn

theorem Normal.sum (h : t.Normal) (hlt : ∀ arg ∈ args, arg < t.size) : Yields (t.sum args) := by
  unfold Table.sum
  dsimp only
  split
  · exact h.literal trivial
  · rename_i hfinite
    obtain ⟨hflat, hlt'⟩ := h.flat_terms (.inl rfl) hlt (Bool.eq_false_iff.mpr hfinite)
    have hsettled := foldNumbers_settled Number.add_settled t (args.flatMap (t.operands .add))
    refine h.combine (.inl rfl) hflat numeric?_of_mem_terms hlt' ?_
      (Number.getD_settled hsettled (Number.settled_ofInt 0))
    intro c hc
    obtain ⟨hc, hzero⟩ := Option.filter_eq_some_iff.mp hc
    exact ⟨hsettled c hc, by simpa [Operator.absorbs] using hzero⟩

theorem Normal.product (h : t.Normal) (hlt : ∀ arg ∈ args, arg < t.size) :
    Yields (t.product args) := by
  unfold Table.product
  dsimp only
  split
  · exact h.literal trivial
  · rename_i hfinite
    obtain ⟨hflat, hlt'⟩ := h.flat_terms (.inr rfl) hlt (Bool.eq_false_iff.mpr hfinite)
    have hsettled := foldNumbers_settled Number.mul_settled t (args.flatMap (t.operands .mul))
    split
    · exact h.number (Number.settled_ofInt 0)
    · rename_i hzero
      refine h.combine (.inr rfl) hflat numeric?_of_mem_terms hlt' ?_
        (Number.getD_settled hsettled (Number.settled_ofInt 1))
      intro c hc
      obtain ⟨hc, hone⟩ := Option.filter_eq_some_iff.mp hc
      rw [hc] at hzero
      refine ⟨hsettled c hc, ?_⟩
      have hzero : c.isZero = false := Bool.eq_false_iff.mpr hzero
      have hone : c.isOne = false := by simpa using hone
      show (c.isZero || c.isOne) = false
      rw [hzero, hone]
      rfl

theorem Normal.power {base exponent : Nat} {result : Nat × Table} (h : t.Normal)
    (hb : base < t.size) (he : exponent < t.size) (hp : t.power base exponent = .ok result) :
    Yields result := by
  cases powered hp with
  | base _ => exact ⟨h, hb⟩
  | one _ => exact h.number (Number.settled_ofInt 1)
  | infinity _ _ _ => exact h.literal trivial
  | number _ _ hn => exact h.number (Number.pow?_settled hn)
  | operation hone htrivial hfold =>
    obtain ⟨hzero, hbase⟩ := Bool.or_eq_false_iff.mp htrivial
    have hunfolded : t.Unfolded base exponent := by
      refine ⟨fun e hx => ?_, fun b hx => ?_, fun b e hx hy => ?_⟩
      · rw [hx] at hone hzero
        exact ⟨hzero, hone⟩
      · rw [hx] at hbase
        exact hbase
      · obtain ⟨hnone, hpole⟩ := hfold b e hx hy
        exact ⟨hnone, fun hboth => Bool.eq_false_iff.mp hpole (Bool.and_eq_true_iff.mpr hboth)⟩
    refine h.operation ⟨rfl, rfl, nofun, ?_, nofun⟩ ?_
    · intro base' exponent' _ hargs
      cases hargs
      exact hunfolded
    · intro arg ha
      rcases List.mem_pair.mp ha with rfl | rfl
      · exact hb
      · exact he

theorem Normal.remainder {a b : Nat} {result : Nat × Table} (h : t.Normal) (ha : a < t.size)
    (hb : b < t.size) (hr : t.remainder? a b = some result) : Yields result := by
  unfold remainder? at hr
  split at hr
  · obtain ⟨n, hn, rfl⟩ := Option.map_eq_some_iff.mp hr
    exact h.number (Number.modulo?_settled hn)
  · rename_i hnot
    cases hr
    refine h.operation ⟨rfl, rfl, nofun, nofun, ?_⟩ ?_
    · intro a' b' _ hargs
      cases hargs
      cases hx : t.numeric? a with
      | none => exact .inl rfl
      | some x =>
        cases hy : t.numeric? b with
        | none => exact .inr rfl
        | some y => exact (hnot x y hx hy).elim
    · intro arg harg
      rcases List.mem_pair.mp harg with rfl | rfl
      · exact ha
      · exact hb

theorem Normal.negate (h : t.Normal) (hid : id < t.size) : Yields (t.negate id) := by
  have hone := h.number (Number.settled_ofInt (-1))
  refine hone.normal.product fun arg ha => ?_
  rcases List.mem_pair.mp ha with rfl | rfl
  · exact hone.lt
  · exact (extends_intern t _).lt_size hid

end Table

/-! ## 4. Lowering -/

namespace Lowering

variable {α β : Type} {P : Table → α → Prop} {Q : Table → β → Prop} {a b : Nat} {span : Span}

/-- A step leaves a table in normal form, also if it fails; if it succeeds, its result is as
    told. -/
def Leaves (P : Table → α → Prop) : EStateM.Result (Stop FormulaError) Table α → Prop
  | .ok x t => t.Normal ∧ P t x
  | .error _ t => t.Normal

/-- An id of the table. -/
def Holds (t : Table) (id : Nat) : Prop := id < t.size

theorem Leaves.normal {result : EStateM.Result (Stop FormulaError) Table α} (h : Leaves P result) :
    (stateOf result).Normal := by
  cases result with
  | ok x t => exact h.1
  | error e t => exact h

theorem Leaves.bind {m : Lowering α} {f : α → Lowering β} (hm : Leaves P (m t))
    (hf : ∀ x t₁, m t = .ok x t₁ → t₁.Normal → P t₁ x → Leaves Q (f x t₁)) :
    Leaves Q ((m >>= f) t) := by
  show Leaves Q (EStateM.bind m f t)
  unfold EStateM.bind
  cases hr : m t with
  | ok x t₁ =>
    rw [hr] at hm
    exact hf x t₁ hr hm.1 hm.2
  | error e t₁ =>
    rw [hr] at hm
    exact hm

theorem leaves_build (f : Table → Nat × Table) (h : Table.Yields (f t)) :
    Leaves Holds (build f t) := ⟨h.normal, h.lt⟩

theorem leaves_symbol (h : t.Normal) (name : String) : Leaves Holds (symbol name t) := by
  unfold symbol
  split
  · exact leaves_build _ (h.literal trivial)
  · exact leaves_build _ (h.literal trivial)
  · exact leaves_build _ (h.literal trivial)
  · exact leaves_build _ (h.symbol name)

theorem leaves_remainder (h : t.Normal) (ha : Holds t a) (hb : Holds t b) :
    Leaves Holds (remainder a b span t) := by
  unfold remainder
  split
  · rename_i hr
    have hyields := h.remainder ha hb hr
    exact ⟨hyields.normal, hyields.lt⟩
  · exact h

theorem leaves_power (h : t.Normal) (ha : Holds t a) (hb : Holds t b) :
    Leaves Holds (power a b t) := by
  unfold power
  split
  · rename_i hr
    have hyields := h.power ha hb hr
    exact ⟨hyields.normal, hyields.lt⟩
  · exact h

theorem leaves_reciprocal (h : t.Normal) (ha : Holds t a) : Leaves Holds (reciprocal a t) := by
  refine (leaves_build (·.number (.ofInt (-1))) (h.number (Number.settled_ofInt (-1)))).bind
    fun minusOne t₁ h₁ hn hone => ?_
  exact leaves_power hn ((extends_build (fun t => t.extends_intern _) h₁).lt_size ha) hone

theorem holds_pair (ha : Holds t a) (hb : Holds t b) : ∀ id ∈ [a, b], Holds t id := by
  intro id hid
  rcases List.mem_pair.mp hid with rfl | rfl
  · exact ha
  · exact hb

theorem leaves_binary (op : BinaryOp) (h : t.Normal) (ha : Holds t a) (hb : Holds t b) :
    Leaves Holds (binary op a b span t) := by
  cases op with
  | add => exact leaves_build (·.sum [a, b]) (h.sum (holds_pair ha hb))
  | subtract =>
    refine (leaves_build (·.negate b) (h.negate hb)).bind fun b' t₁ h₁ hn hb' => ?_
    have ha' := (extends_build (fun t => t.extends_negate _) h₁).lt_size ha
    exact leaves_build (·.sum [a, b']) (hn.sum (holds_pair ha' hb'))
  | multiply => exact leaves_build (·.product [a, b]) (h.product (holds_pair ha hb))
  | divide =>
    refine (leaves_reciprocal h hb).bind fun b' t₁ h₁ hn hb' => ?_
    have ha' := ((grows_reciprocal b).extends h₁).lt_size ha
    exact leaves_build (·.product [a, b']) (hn.product (holds_pair ha' hb'))
  | modulo => exact leaves_remainder h ha hb
  | power => exact leaves_power h ha hb

/-- What the table of functions says of a function and the numbers of arguments it may be called
    with: those of its operation, but for a logarithm to a base and the minimum of one node. -/
def Callable (op : Operator) (arity : Arity) : Prop :=
  op.isLiteral = false ∧ op ≠ .add ∧ op ≠ .mul ∧ op ≠ .pow ∧
    (arity = op.nodeArity ∨ op = .log ∧ arity = .between 1 2 ∨
      (op = .min ∨ op = .max) ∧ arity = .atLeast 1)

instance (op : Operator) (arity : Arity) : Decidable (Callable op arity) :=
  inferInstanceAs (Decidable (_ ∧ _))

theorem callable_ofCall (name : String) :
    Callable (Operator.ofCall name).1 (Operator.ofCall name).2 :=
  Operator.ofCall_of_forall (P := fun c => Callable c.1 c.2) (by decide)
    (fun _ => ⟨rfl, nofun, nofun, nofun, .inl rfl⟩) name

/-- A function that is not rewritten is called with as many arguments as its operation has. -/
theorem Callable.nodeArity_accepts {op : Operator} {arity : Arity} {n : Nat}
    (hc : Callable op arity) (haccepts : arity.accepts n = true) (hlog : op = .log → n ≠ 2)
    (hmin : op = .min ∨ op = .max → n ≠ 1) : op.nodeArity.accepts n = true := by
  obtain ⟨-, -, -, -, rfl | ⟨rfl, rfl⟩ | ⟨hop, rfl⟩⟩ := hc
  · exact haccepts
  · have hn := hlog rfl
    obtain ⟨h₁, h₂⟩ := Bool.and_eq_true_iff.mp haccepts
    have h₁ := of_decide_eq_true h₁
    have h₂ := of_decide_eq_true h₂
    obtain rfl : n = 1 := by omega
    rfl
  · have hn := hmin hop
    have h₁ : 1 ≤ n := of_decide_eq_true haccepts
    have h₂ : 2 ≤ n := by omega
    rcases hop with rfl | rfl
    · exact decide_eq_true h₂
    · exact decide_eq_true h₂

theorem normalOperation_log (t : Table) (x : Nat) : t.NormalOperation .log [x] :=
  ⟨rfl, rfl, nofun, nofun, nofun⟩

theorem leaves_call {op : Operator} {arity : Arity} {args : List Nat} (hc : Callable op arity)
    (haccepts : arity.accepts args.length = true) (h : t.Normal) (hargs : ∀ id ∈ args, Holds t id) :
    Leaves Holds (call op args span t) := by
  unfold call
  split
  · rename_i x base
    have hx : Holds t x := hargs x (by simp)
    have hbase : Holds t base := hargs base (by simp)
    refine (leaves_build (·.operation .log [x])
      (h.operation (normalOperation_log t x) (List.forall_mem_singleton.mpr hx))).bind
      fun above t₁ h₁ hn₁ habove => ?_
    have he₁ : t.Extends t₁ := extends_build (fun t => t.extends_intern _) h₁
    refine (leaves_build (·.operation .log [base])
      (hn₁.operation (normalOperation_log t₁ base)
        (List.forall_mem_singleton.mpr (he₁.lt_size hbase)))).bind
      fun below t₂ h₂ hn₂ hbelow => ?_
    have he₂ : t₁.Extends t₂ := extends_build (fun t => t.extends_intern _) h₂
    refine (leaves_reciprocal hn₂ hbelow).bind fun inverse t₃ h₃ hn₃ hinverse => ?_
    have he₃ : t₂.Extends t₃ := (grows_reciprocal below).extends h₃
    exact leaves_build (·.product [above, inverse])
      (hn₃.product (holds_pair (he₃.lt_size (he₂.lt_size habove)) hinverse))
  · exact ⟨h, hargs _ (List.mem_singleton_self _)⟩
  · exact ⟨h, hargs _ (List.mem_singleton_self _)⟩
  · exact leaves_remainder h (hargs _ (by simp)) (hargs _ (by simp))
  · rename_i hlog hmin hmax hmod
    have harity := hc.nodeArity_accepts haccepts
      (fun hop hlen => by
        obtain ⟨x, y, rfl⟩ := List.length_eq_two.mp hlen
        exact hlog x y hop rfl)
      (fun hop hlen => by
        obtain ⟨x, rfl⟩ := List.length_eq_one_iff.mp hlen
        exact hop.elim (fun hop => hmin x hop rfl) (fun hop => hmax x hop rfl))
    obtain ⟨hliteral, hadd, hmul, hpow, -⟩ := hc
    refine leaves_build (·.operation op args) (h.operation ?_ hargs)
    exact ⟨hliteral, harity, fun hop => absurd hop (not_or.mpr ⟨hadd, hmul⟩),
      fun _ _ hop => absurd hop hpow, fun a b hop ha => (hmod a b hop ha).elim⟩

end Lowering

namespace Formula

open Lowering (Leaves Holds)

mutual
/-- **Lowering keeps a table in normal form**, also where it fails. -/
theorem lower_leaves : ∀ (f : Formula) {t : Table}, t.Normal → Leaves Holds (f.lower t)
  | integer value _, _, h => Lowering.leaves_build _ (h.number (Number.settled_ofInt value))
  | float value _, _, h => Lowering.leaves_build _ (h.literal trivial)
  | symbol name _, _, h => Lowering.leaves_symbol h name
  | binary op left right _, _, h => by
      refine (lower_leaves left h).bind fun a t₁ _ h₁ ha => ?_
      refine (lower_leaves right h₁).bind fun b t₂ hr h₂ hb => ?_
      exact Lowering.leaves_binary op h₂ ((extends_lower right hr).lt_size ha) hb
  | negative operand _, _, h =>
      (lower_leaves operand h).bind fun _ _ _ h₁ ha => Lowering.leaves_build _ (h₁.negate ha)
  | call name arguments _, t, h => by
      show Leaves Holds ((if (Operator.ofCall name).2.accepts arguments.length then
        lowerAll arguments >>= fun args => Lowering.call (Operator.ofCall name).1 args _
        else throw _ : Lowering Nat) t)
      split
      · rename_i haccepts
        refine (lowerAll_leaves arguments h).bind fun args t₁ hl h₁ hargs => ?_
        exact Lowering.leaves_call (Lowering.callable_ofCall name) (hargs.1 ▸ haccepts) h₁ hargs.2
      · exact h
  | group inner _, _, h => lower_leaves inner h

theorem lowerAll_leaves : ∀ (fs : List Formula) {t : Table}, t.Normal →
    Leaves (fun t ids => ids.length = fs.length ∧ ∀ id ∈ ids, Holds t id) (lowerAll fs t)
  | [], _, h => ⟨h, rfl, nofun⟩
  | f :: fs, _, h => by
      refine (lower_leaves f h).bind fun a t₁ _ h₁ ha => ?_
      refine (lowerAll_leaves fs h₁).bind fun as t₂ hl h₂ has => ?_
      refine ⟨h₂, congrArg (· + 1) has.1, fun id hid => ?_⟩
      rcases List.mem_cons.mp hid with rfl | hid
      · exact (extends_lowerAll fs hl).lt_size ha
      · exact has.2 id hid
end

end Formula

namespace Table

theorem Normal.leaves_read (h : t.Normal) (cs : List Char) :
    Lowering.Leaves Lowering.Holds (Table.read cs t) := by
  unfold Table.read
  cases Formula.parse cs with
  | ok f => exact f.lower_leaves h
  | error e => exact h

theorem Normal.read (h : t.Normal) (cs : List Char) : (stateOf (Table.read cs t)).Normal :=
  (h.leaves_read cs).normal

/-- The table after reading texts one after the other; a text that is refused is passed over, and
    what it has added stays. -/
def readAll (texts : List (List Char)) : Table :=
  texts.foldl (fun t cs => stateOf (read cs t)) empty

/-- What each reading keeps, all of them keep. -/
theorem Normal.foldl_read (h : t.Normal) (texts : List (List Char)) :
    (texts.foldl (fun t cs => stateOf (Table.read cs t)) t).Normal := by
  induction texts generalizing t with
  | nil => exact h
  | cons cs texts ih => exact ih (h.read cs)

/-- **Whatever is read, every node is in normal form.** -/
theorem normal_readAll (texts : List (List Char)) : (readAll texts).Normal :=
  normal_empty.foldl_read texts

-- The remainder is refused, and the product before it stays.
example : (readAll ["2*x + Mod(1, 0)".toList]).nodes =
    #[.literal (.integer 2), .symbol "x", .operation .mul [0, 1], .literal .one,
      .literal .zero] := by
  decide +kernel

end Table

end FormulaGraph
