/-
  File:      FormulaGraph/Proofs/History/Expression.lean
  Subject:   What a formula is lowered to, told without a table.

  The builders look at the nodes of a table, but all they find there is in the trees of their
  arguments. So each of them computes a function of trees, and lowering computes a tree or an error
  that the formula alone decides.

  * `Tree.sum`, `Tree.product`, `Tree.power`, `Tree.remainder?` -- the canonical forms of trees;
  * `Formula.expression` -- the tree of a formula, or why it has none;
  * `Table.treeOf_sum`, … -- a builder computes the canonical form of the trees it is given.
-/
import FormulaGraph.Proofs.Table.Tree

namespace FormulaGraph

/-! ## 1. Canonical forms of trees -/

namespace Tree

/-- The number that a tree stands for, if it can be folded. -/
def numeric? : Tree → Option Number
  | literal value => value.toNumber?
  | _ => none

def isComplexInfinity : Tree → Bool
  | literal value => value == .complexInfinity
  | _ => false

/-- The arguments of a tree if it is an operation `op`, and else the tree itself. -/
def operands (op : Operator) : Tree → List Tree
  | operation inner args => if inner = op then args else [operation inner args]
  | tree => [tree]

def number (n : Number) : Tree := literal (.ofNumber n)

/-- The operation on a coefficient and the other arguments, or what is left of it. -/
def combine (op : Operator) (coefficient : Option Number) (others : List Tree) (alone : Number) :
    Tree :=
  match others, coefficient with
  | [], _ => number alone
  | [single], none => single
  | others, none => operation op others
  | others, some c => operation op (number c :: others)

theorem combine_some (op : Operator) (c : Number) (first : Tree) (rest : List Tree)
    (alone : Number) :
    combine op (some c) (first :: rest) alone = operation op (number c :: first :: rest) := by
  cases rest
  · rfl
  · rfl

def sum (args : List Tree) : Tree :=
  let args := args.flatMap (operands .add)
  if args.any isComplexInfinity then literal .complexInfinity
  else
    let coefficient := Table.foldNumbers Number.add (args.filterMap numeric?)
    let terms := args.filter fun a => a.numeric?.isNone
    combine .add (coefficient.filter (!·.isZero)) terms (coefficient.getD .zero)

def product (args : List Tree) : Tree :=
  let args := args.flatMap (operands .mul)
  if args.any isComplexInfinity then literal .complexInfinity
  else
    let coefficient := Table.foldNumbers Number.mul (args.filterMap numeric?)
    let factors := args.filter fun a => a.numeric?.isNone
    if coefficient.any Number.isZero then number .zero
    else combine .mul (coefficient.filter (!·.isOne)) factors (coefficient.getD .one)

/-- A power of two numbers, if it folds. -/
def foldedPower (base exponent : Number) : Except Number.Overflow (Option Tree) :=
  if base.isZero && exponent.isNegative then return some (literal .complexInfinity)
  else return (← base.pow? exponent).map number

def power (base exponent : Tree) : Except Number.Overflow Tree :=
  let b := base.numeric?
  let e := exponent.numeric?
  if e.any Number.isOne then return base
  else if e.any Number.isZero || b.any Number.isOne then return number .one
  else
    match b, e with
    | some b, some e => return (← foldedPower b e).getD (operation .pow [base, exponent])
    | _, _ => return operation .pow [base, exponent]

def remainder? (a b : Tree) : Option Tree :=
  match a.numeric?, b.numeric? with
  | some x, some y => (x.modulo? y).map number
  | _, _ => some (operation .mod [a, b])

def negate (tree : Tree) : Tree := product [number (.ofInt (-1)), tree]

def reciprocal (tree : Tree) : Except Number.Overflow Tree := power tree (number (.ofInt (-1)))

/-- The tree of a name. -/
def name (name : String) : Tree :=
  match name with
  | "pi" => literal .pi
  | "E" => literal .exp1
  | "zoo" => literal .complexInfinity
  | _ => symbol name

theorem name_of_ne {name : String} (hpi : name ≠ "pi") (hexp1 : name ≠ "E") (hzoo : name ≠ "zoo") :
    Tree.name name = symbol name := by
  unfold Tree.name
  split
  · exact absurd rfl hpi
  · exact absurd rfl hexp1
  · exact absurd rfl hzoo
  · rfl

/-- The remainder of two trees; a constant zero divisor is an error at `span`. -/
def remainder (a b : Tree) (span : Span) : Except (Stop FormulaError) Tree :=
  match remainder? a b with
  | some tree => .ok tree
  | none => .error (.refused (.moduloByZero span))

/-- An operator applied to two trees. -/
def binary (op : BinaryOp) (left right : Tree) (span : Span) : Except (Stop FormulaError) Tree :=
  match op with
  | .add => .ok (sum [left, right])
  | .subtract => .ok (sum [left, negate right])
  | .multiply => .ok (product [left, right])
  | .divide => do
    let right ← right.reciprocal.mapError .overflow
    return product [left, right]
  | .modulo => remainder left right span
  | .power => (power left right).mapError .overflow

/-- A function applied to trees. -/
def call (op : Operator) (args : List Tree) (span : Span) : Except (Stop FormulaError) Tree :=
  match op, args with
  | .log, [x, base] => do
    let below ← (operation .log [base]).reciprocal.mapError .overflow
    return product [operation .log [x], below]
  | .min, [single] => .ok single
  | .max, [single] => .ok single
  | .mod, [a, b] => remainder a b span
  | op, args => .ok (operation op args)

/-- A function that is not rewritten becomes an operation. -/
theorem call_of_length {op : Operator} {args : List Tree} {span : Span}
    (hlog : op = .log → args.length ≠ 2) (hmin : op = .min ∨ op = .max → args.length ≠ 1)
    (hmod : op = .mod → args.length ≠ 2) : call op args span = .ok (operation op args) := by
  unfold call
  split
  · exact absurd rfl (hlog rfl)
  · exact absurd rfl (hmin (.inl rfl))
  · exact absurd rfl (hmin (.inr rfl))
  · exact absurd rfl (hmod rfl)
  · rfl

end Tree

namespace Formula

mutual
/-- The tree of a formula, or why it has none. -/
def expression : Formula → Except (Stop FormulaError) Tree
  | integer value _ => .ok (.number (.ofInt value))
  | float value _ => .ok (.literal (.float (.ofFloat value)))
  | symbol name _ => .ok (.name name)
  | binary op left right span => do
    let left ← left.expression
    let right ← right.expression
    Tree.binary op left right span
  | negative operand _ => do
    let operand ← operand.expression
    return operand.negate
  | call name arguments span =>
    let (op, arity) := Operator.ofCall name
    if arity.accepts arguments.length then do
      let args ← expressions arguments
      Tree.call op args span
    else .error (.refused (.wrongArity name arity arguments.length span))
  | group inner _ => inner.expression

/-- The trees of formulas, or the first error. -/
def expressions : List Formula → Except (Stop FormulaError) (List Tree)
  | [] => .ok []
  | f :: fs => do
    let tree ← f.expression
    let trees ← expressions fs
    return tree :: trees
end

end Formula

/-! ## 2. What builders find in a table -/

namespace Table

variable {t : Table} {id : Nat} {args : List Nat} {op : Operator}

theorem Ordered.numeric?_tree (ho : t.Ordered) (hlt : id < t.size) :
    (t.tree id).numeric? = t.numeric? id := by
  obtain ⟨node, hn⟩ := exists_node hlt
  rw [ho.tree_eq hn, numeric?, hn]
  cases node <;> rfl

theorem Ordered.isComplexInfinity_tree (ho : t.Ordered) (hlt : id < t.size) :
    (t.tree id).isComplexInfinity = t.isComplexInfinity id := by
  obtain ⟨node, hn⟩ := exists_node hlt
  rw [ho.tree_eq hn, isComplexInfinity, hn]
  cases node with
  | symbol name => rfl
  | literal value =>
    show (value == .complexInfinity) = _
    cases value <;> rfl
  | operation op args => rfl

theorem Ordered.operands_tree (ho : t.Ordered) (hlt : id < t.size) (op : Operator) :
    (t.tree id).operands op = (t.operands op id).map t.tree := by
  obtain ⟨node, hn⟩ := exists_node hlt
  unfold operands
  rw [ho.tree_eq hn, hn]
  cases node with
  | symbol name => exact congrArg ([·]) (ho.tree_eq hn).symm
  | literal value => exact congrArg ([·]) (ho.tree_eq hn).symm
  | operation inner args =>
    show (if inner = op then args.map t.tree else _) =
      (if inner = op then args else [id]).map t.tree
    split
    · rfl
    · exact congrArg ([·]) (ho.tree_eq hn).symm

theorem Ordered.operands_lt (ho : t.Ordered) (hlt : id < t.size) :
    ∀ arg ∈ t.operands op id, arg < t.size := by
  intro arg ha
  unfold operands at ha
  split at ha
  · rename_i inner args hn
    split at ha
    · exact Nat.lt_trans (ho id _ hn arg ha) hlt
    · rwa [List.mem_singleton.mp ha]
  · rwa [List.mem_singleton.mp ha]

/-- The arguments of a sum or a product after flattening. -/
def flattened (t : Table) (op : Operator) (args : List Nat) : List Nat :=
  args.flatMap (t.operands op)

theorem Ordered.flattened_lt (ho : t.Ordered) (hlt : ∀ arg ∈ args, arg < t.size) :
    ∀ arg ∈ t.flattened op args, arg < t.size := by
  intro arg ha
  obtain ⟨outer, hm, ha⟩ := List.mem_flatMap.mp ha
  exact ho.operands_lt (hlt outer hm) arg ha

theorem Ordered.flattened_tree (ho : t.Ordered) (hlt : ∀ arg ∈ args, arg < t.size) :
    (args.map t.tree).flatMap (Tree.operands op) = (t.flattened op args).map t.tree := by
  induction args with
  | nil => rfl
  | cons arg args ih =>
    obtain ⟨harg, hargs⟩ := List.forall_mem_cons.mp hlt
    unfold flattened at ih ⊢
    rw [List.map_cons, List.flatMap_cons, List.flatMap_cons, List.map_append, ih hargs,
      ho.operands_tree harg]

theorem Ordered.any_tree (ho : t.Ordered) (hlt : ∀ arg ∈ args, arg < t.size) :
    (args.map t.tree).any Tree.isComplexInfinity = args.any t.isComplexInfinity := by
  induction args with
  | nil => rfl
  | cons arg args ih =>
    obtain ⟨harg, hargs⟩ := List.forall_mem_cons.mp hlt
    rw [List.map_cons, List.any_cons, List.any_cons, ih hargs, ho.isComplexInfinity_tree harg]

theorem Ordered.filterMap_tree (ho : t.Ordered) (hlt : ∀ arg ∈ args, arg < t.size) :
    (args.map t.tree).filterMap Tree.numeric? = args.filterMap t.numeric? := by
  rw [List.filterMap_map]
  exact List.filterMap_congr fun arg ha => ho.numeric?_tree (hlt arg ha)

theorem Ordered.filter_tree (ho : t.Ordered) (hlt : ∀ arg ∈ args, arg < t.size) :
    ((args.map t.tree).filter fun a => a.numeric?.isNone) =
      (args.filter fun a => (t.numeric? a).isNone).map t.tree := by
  rw [List.filter_map]
  refine congrArg (List.map t.tree) (List.filter_congr fun arg ha => ?_)
  exact congrArg Option.isNone (ho.numeric?_tree (hlt arg ha))

/-! ## 3. What builders compute -/

/-- The tree of what a builder gives. -/
def treeOf (result : Nat × Table) : Tree := result.2.tree result.1

/-- **Interning a node gives its tree.** -/
theorem treeOf_intern (ho : t.Ordered) (hi : t.Indexed) {node : Node}
    (hlt : ∀ arg ∈ node.args, arg < t.size) : treeOf (t.intern node) = node.treeOver t.tree := by
  have ho' := ho.intern (List.all_eq_true.mpr fun arg ha => decide_eq_true (hlt arg ha))
  show (t.intern node).2.tree (t.intern node).1 = _
  rw [ho'.tree_eq (hi.node?_intern node)]
  cases node with
  | symbol name => rfl
  | literal value => rfl
  | operation op args =>
    refine congrArg (Tree.operation op) (List.map_congr_left fun arg ha => ?_)
    exact (extends_intern t _).tree_eq ho (hlt arg ha)

theorem treeOf_symbol (ho : t.Ordered) (hi : t.Indexed) (name : String) :
    treeOf (t.symbol name) = .symbol name := treeOf_intern ho hi nofun

theorem treeOf_literal (ho : t.Ordered) (hi : t.Indexed) (value : Literal) :
    treeOf (t.literal value) = .literal value := treeOf_intern ho hi nofun

theorem treeOf_number (ho : t.Ordered) (hi : t.Indexed) (n : Number) :
    treeOf (t.number n) = .number n := treeOf_intern ho hi nofun

theorem treeOf_operation (ho : t.Ordered) (hi : t.Indexed) (hlt : ∀ arg ∈ args, arg < t.size) :
    treeOf (t.operation op args) = .operation op (args.map t.tree) := treeOf_intern ho hi hlt

/-- The table that is left after writing down a number. -/
theorem number_kept (ho : t.Ordered) (hi : t.Indexed) (n : Number) :
    (t.number n).2.Ordered ∧ (t.number n).2.Indexed ∧ (t.number n).1 < (t.number n).2.size ∧
      ∀ id < t.size, id < (t.number n).2.size ∧ (t.number n).2.tree id = t.tree id :=
  ⟨ho.intern rfl, hi.intern _, node?_eq_some_lt (hi.node?_intern _), fun _ hlt =>
    ⟨(extends_intern t _).lt_size hlt, (extends_intern t _).tree_eq ho hlt⟩⟩

theorem treeOf_combine (ho : t.Ordered) (hi : t.Indexed) (hlt : ∀ arg ∈ args, arg < t.size)
    (coefficient : Option Number) (alone : Number) :
    treeOf (t.combine op coefficient args alone) =
      Tree.combine op coefficient (args.map t.tree) alone := by
  match args, coefficient with
  | [], _ => exact treeOf_number ho hi alone
  | [single], none => rfl
  | a :: b :: args, none => exact treeOf_operation ho hi hlt
  | a :: args, some c =>
    obtain ⟨ho', hi', hfirst, hkept⟩ := number_kept ho hi c
    have hargs : ∀ arg ∈ (t.number c).1 :: a :: args, arg < (t.number c).2.size :=
      List.forall_mem_cons.mpr ⟨hfirst, fun arg ha => (hkept arg (hlt arg ha)).1⟩
    have htrees : (a :: args).map (t.number c).2.tree = (a :: args).map t.tree :=
      List.map_congr_left fun arg ha => (hkept arg (hlt arg ha)).2
    rw [combine_some, List.map_cons, Tree.combine_some, treeOf_operation ho' hi' hargs,
      List.map_cons, htrees]
    exact congrArg (fun first => Tree.operation op (first :: (a :: args).map t.tree))
      (treeOf_number ho hi c)

theorem treeOf_sum (ho : t.Ordered) (hi : t.Indexed) (hlt : ∀ arg ∈ args, arg < t.size) :
    treeOf (t.sum args) = Tree.sum (args.map t.tree) := by
  have hflat : ∀ arg ∈ t.flattened .add args, arg < t.size := ho.flattened_lt hlt
  unfold sum Tree.sum
  rw [ho.flattened_tree hlt]
  dsimp only
  rw [ho.any_tree hflat, ho.filterMap_tree hflat, ho.filter_tree hflat]
  show treeOf (if (t.flattened .add args).any t.isComplexInfinity then _ else _) = _
  split
  · exact treeOf_literal ho hi _
  · exact treeOf_combine ho hi (fun arg ha => hflat arg (List.mem_of_mem_filter ha)) _ _

theorem treeOf_product (ho : t.Ordered) (hi : t.Indexed) (hlt : ∀ arg ∈ args, arg < t.size) :
    treeOf (t.product args) = Tree.product (args.map t.tree) := by
  have hflat : ∀ arg ∈ t.flattened .mul args, arg < t.size := ho.flattened_lt hlt
  unfold product Tree.product
  rw [ho.flattened_tree hlt]
  dsimp only
  rw [ho.any_tree hflat, ho.filterMap_tree hflat, ho.filter_tree hflat]
  show treeOf (if (t.flattened .mul args).any t.isComplexInfinity then _ else _) = _
  split
  · exact treeOf_literal ho hi _
  · show treeOf (if (foldNumbers Number.mul ((t.flattened .mul args).filterMap t.numeric?)).any
      Number.isZero then _ else _) = _
    split
    · exact treeOf_number ho hi _
    · exact treeOf_combine ho hi (fun arg ha => hflat arg (List.mem_of_mem_filter ha)) _ _

theorem treeOf_foldedPower (ho : t.Ordered) (hi : t.Indexed) (base exponent : Number) :
    (t.foldedPower base exponent).map (Option.map treeOf) = Tree.foldedPower base exponent := by
  unfold foldedPower Tree.foldedPower
  split
  · exact congrArg (Except.ok ∘ some) (treeOf_literal ho hi _)
  · cases base.pow? exponent with
    | error overflow => rfl
    | ok n? =>
      cases n? with
      | none => rfl
      | some n => exact congrArg (Except.ok ∘ some) (treeOf_number ho hi n)

theorem treeOf_power {base exponent : Nat} (ho : t.Ordered) (hi : t.Indexed) (hb : base < t.size)
    (he : exponent < t.size) :
    (t.power base exponent).map treeOf = Tree.power (t.tree base) (t.tree exponent) := by
  unfold power Tree.power
  rw [ho.numeric?_tree hb, ho.numeric?_tree he]
  dsimp only
  split
  · rfl
  · split
    · exact congrArg Except.ok (treeOf_number ho hi _)
    · have hpow : treeOf (t.operation .pow [base, exponent]) =
          .operation .pow [t.tree base, t.tree exponent] :=
        treeOf_operation ho hi
          (List.forall_mem_cons.mpr ⟨hb, List.forall_mem_singleton.mpr he⟩)
      cases t.numeric? base with
      | none => exact congrArg Except.ok hpow
      | some b =>
        cases t.numeric? exponent with
        | none => exact congrArg Except.ok hpow
        | some e =>
          dsimp only
          rw [← treeOf_foldedPower ho hi, ← hpow]
          cases t.foldedPower b e with
          | error overflow => rfl
          | ok folded => cases folded <;> rfl

theorem treeOf_remainder? {a b : Nat} (ho : t.Ordered) (hi : t.Indexed) (ha : a < t.size)
    (hb : b < t.size) : (t.remainder? a b).map treeOf = Tree.remainder? (t.tree a) (t.tree b) := by
  have hmod : treeOf (t.operation .mod [a, b]) = .operation .mod [t.tree a, t.tree b] :=
    treeOf_operation ho hi (List.forall_mem_cons.mpr ⟨ha, List.forall_mem_singleton.mpr hb⟩)
  unfold remainder? Tree.remainder?
  rw [ho.numeric?_tree ha, ho.numeric?_tree hb]
  cases t.numeric? a with
  | none => exact congrArg some hmod
  | some x =>
    cases t.numeric? b with
    | none => exact congrArg some hmod
    | some y =>
      show ((x.modulo? y).map t.number).map treeOf = (x.modulo? y).map Tree.number
      cases x.modulo? y with
      | none => rfl
      | some n => exact congrArg some (treeOf_number ho hi n)

theorem treeOf_negate (ho : t.Ordered) (hi : t.Indexed) (hid : id < t.size) :
    treeOf (t.negate id) = (t.tree id).negate := by
  obtain ⟨ho', hi', hfirst, hkept⟩ := number_kept ho hi (.ofInt (-1))
  obtain ⟨hlt, htree⟩ := hkept id hid
  show treeOf ((t.number (.ofInt (-1))).2.product [(t.number (.ofInt (-1))).1, id]) = _
  rw [treeOf_product ho' hi' (List.forall_mem_cons.mpr ⟨hfirst, List.forall_mem_singleton.mpr hlt⟩)]
  show Tree.product [treeOf (t.number (.ofInt (-1))), _] = _
  rw [treeOf_number ho hi, htree]
  rfl

end Table

end FormulaGraph
