/-
  File:      FormulaGraph/Proofs/Plan/Ports.lean
  Subject:   The symbols of an expression, and the ports of its plan.

  The names of the symbols are collected on a walk that turns back at nodes it has met. The tree
  that the root stands for has a place for every use, so it may be exponentially larger; listing its
  names from left to right and keeping first occurrences gives the same. A name may belong to
  several nodes. The plan meets the symbols in another order, and makes the ports of the same names.

  * `Tree.symbols` -- the names in a tree, from left to right, with repetitions;
  * `filterMap_unfoldingTo` -- they are the names of the unfolded ids;
  * `freeSymbols_eq` -- the walk collects their first occurrences;
  * `Worklist.symbols` -- the walk with a stack;
  * `mem_inputPorts_iff` -- the ports of a plan are the names below its root;
  * `walks_agree` -- counts, names and ports, for every root of a built table.
-/
import Mathlib.Data.Finset.Dedup
import FormulaGraph.Proofs.Plan.Compiled
import FormulaGraph.Table.Tree

namespace FormulaGraph

/-! ## 1. The names in a tree -/

namespace Tree

mutual
/-- The names of the symbols in a tree, from left to right. -/
def symbols : Tree → List String
  | symbol name => [name]
  | literal _ => []
  | operation _ args => symbolsAll args

/-- The names in some trees, one after the other. -/
def symbolsAll : List Tree → List String
  | [] => []
  | a :: as => a.symbols ++ symbolsAll as
end

theorem symbolsAll_map {α : Type} (f : α → Tree) (as : List α) :
    symbolsAll (as.map f) = as.flatMap fun a => (f a).symbols := by
  induction as with
  | nil => rfl
  | cons a as ih => rw [List.map_cons, symbolsAll, ih, List.flatMap_cons]

end Tree

namespace Table

variable {t : Table} {root id : Nat}

/-- **The names in a tree are those of the unfolded ids.** -/
theorem filterMap_unfoldingTo (ht : t.Ordered) {levels : Nat} (hl : id < levels)
    (hs : id < t.size) :
    (t.unfoldingTo levels id).filterMap t.symbolName? = (t.unfold levels id).symbols := by
  induction levels generalizing id with
  | zero => exact absurd hl (Nat.not_lt_zero _)
  | succ levels ih =>
    obtain ⟨node, hn⟩ := exists_node hs
    cases node with
    | symbol name => simp [unfoldingTo, unfold, args, symbolName?, hn, Node.args, Tree.symbols]
    | literal value => simp [unfoldingTo, unfold, args, symbolName?, hn, Node.args, Tree.symbols]
    | operation op args =>
      have hargs : t.args id = args := by rw [Table.args, hn]; rfl
      have hname : t.symbolName? id = none := by rw [symbolName?, hn]
      have htree :
          t.unfold (levels + 1) id = .operation op (args.map fun arg => t.unfold levels arg) := by
        rw [unfold, hn]
      rw [htree, Tree.symbols, Tree.symbolsAll_map, unfoldingTo, hargs,
        List.filterMap_cons_none hname, List.filterMap_flatMap]
      refine List.flatMap_congr fun arg ha => ?_
      have hlt : arg < id := ht.args_lt (hargs ▸ ha)
      exact ih (by omega) (by omega)

/-- **The walk collects the first occurrences of the names in the tree.** -/
theorem freeSymbols_eq (ht : t.Ordered) (hr : root < t.size) :
    t.freeSymbols root = (t.tree root).symbols.eraseDups := by
  rw [freeSymbols, preorder_eq_eraseDups ht, eraseDups_filterMap_eraseDups, unfolding,
    filterMap_unfoldingTo ht (Nat.lt_succ_self root) hr]
  rfl

theorem reachableCount_eq (ht : t.Ordered) (root : Nat) :
    t.reachableCount root = (t.unfolding root).toFinset.card := by
  have hset : (t.unfolding root).toFinset = (t.preorder root).toFinset := by
    ext id
    rw [List.mem_toFinset, List.mem_toFinset, preorder_eq_eraseDups ht, List.mem_eraseDups]
  rw [hset, List.toFinset_card_of_nodup (nodup_preorder ht)]
  rfl

theorem mem_freeSymbols_iff (ht : t.Ordered) {name : String} :
    name ∈ t.freeSymbols root ↔ ∃ id, t.Below root id ∧ t.symbolName? id = some name := by
  simp only [freeSymbols, List.mem_eraseDups, List.mem_filterMap, mem_preorder_iff ht]

end Table

/-! ## 2. The walk with a stack -/

namespace Worklist

variable {t : Table} {root turns : Nat}

/-- The names with the one of a node, if it is a symbol and has a new name. -/
def addName (t : Table) (names : List String) (id : Nat) : List String :=
  match t.symbolName? id with
  | some name => if name ∈ names then names else names ++ [name]
  | none => names

/-- The names of the symbols below the root, collected with a stack. -/
def symbols (t : Table) (root turns : Nat) : Option (List String) :=
  walk (m := Id) t.args (fun names id => addName t names id) turns [root] [] []

/-- One node. -/
theorem addName_eraseDups (t : Table) (names : List String) (id : Nat) :
    addName t names.eraseDups id = (names ++ [id].filterMap t.symbolName?).eraseDups := by
  unfold addName
  cases hs : t.symbolName? id with
  | none => simp [hs]
  | some name =>
    simp only [List.filterMap_cons_some hs, List.filterMap_nil, eraseDups_concat,
      List.mem_eraseDups]

/-- A run over nodes. -/
theorem foldlM_addName (t : Table) (ids : List Nat) (names : List String) :
    ids.foldlM (m := Id) (fun names id => addName t names id) names.eraseDups =
      (names ++ ids.filterMap t.symbolName?).eraseDups := by
  induction ids generalizing names with
  | nil =>
    rw [List.filterMap_nil, List.append_nil]
    rfl
  | cons id ids ih =>
    have hsplit : (id :: ids).filterMap t.symbolName? =
        [id].filterMap t.symbolName? ++ ids.filterMap t.symbolName? := by
      rw [← List.filterMap_append]
      rfl
    rw [hsplit, ← List.append_assoc, ← ih, ← addName_eraseDups]
    rfl

/-- **The stack ends and has collected the names.** -/
theorem symbols_eq (ht : t.Ordered) (h : (t.uses root).length + 2 ≤ turns) :
    symbols t root turns = some (t.freeSymbols root) := by
  have hsuff := suffices_root ht (fun id => List.Perm.refl (t.args id)) h
  refine (walk_eq_foldlM (m := Id) hsuff).trans ?_
  rw [visits_eq_preorder ht hsuff]
  exact congrArg some (foldlM_addName t (t.preorder root) [])

end Worklist

/-! ## 3. The ports of a plan -/

namespace Table

variable {t : Table} {root : Nat} {c : Catalogue} {o : CompoundOptions} {p : Plan}

/-- **The ports of a plan are the names below its root.** -/
theorem mem_inputPorts_iff (ht : t.Ordered) (h : t.compile root c o = .ok p) {name : String} :
    name ∈ p.inputPorts ↔ ∃ id, t.Below root id ∧ t.symbolName? id = some name := by
  obtain ⟨nodes, hplan, rfl⟩ := compile_ok h
  rw [Plan.inputPorts, List.mem_eraseDups, filterMap_port hplan, List.mem_filterMap]
  constructor
  · rintro ⟨⟨id, node⟩, hm, hname⟩
    obtain ⟨hb, hn⟩ := (mem_creations_iff ht).mp hm
    exact ⟨id, hb, (Worklist.symbolName?_of_node? hn).trans hname⟩
  · rintro ⟨id, hb, hname⟩
    cases hn : t.node? id with
    | none =>
      rw [symbolName?, hn] at hname
      cases hname
    | some node =>
      exact ⟨(id, node), (mem_creations_iff ht).mpr ⟨hb, hn⟩,
        (Worklist.symbolName?_of_node? hn).symm.trans hname⟩

/-- **The walks agree with the tree.** The count is that of the distinct ids in the unfolded tree,
    the symbols are the names in the tree at their first occurrences, and the walks with a stack end
    with these answers. A plan has a port for each of the names and no other. -/
theorem walks_agree (ht : t.Built) (hr : root < t.size) :
    t.reachableCount root = (t.unfolding root).toFinset.card ∧
      t.freeSymbols root = (t.tree root).symbols.eraseDups ∧
      (∀ turns, (t.uses root).length + 2 ≤ turns →
        Worklist.count t root turns = some (t.reachableCount root) ∧
          Worklist.symbols t root turns = some (t.freeSymbols root)) ∧
      ∀ c o p, t.compile root c o = .ok p →
        p.inputPorts.Nodup ∧ p.inputPorts.Perm (t.freeSymbols root) := by
  have hord := ht.ordered
  refine ⟨reachableCount_eq hord root, freeSymbols_eq hord hr, fun turns h =>
    ⟨Worklist.count_eq hord h, Worklist.symbols_eq hord h⟩, fun c o p hp => ?_⟩
  have hports : p.inputPorts.Nodup := nodup_eraseDups _
  refine ⟨hports, (List.perm_ext_iff_of_nodup hports (nodup_eraseDups _)).mpr fun name => ?_⟩
  exact (mem_inputPorts_iff hord hp).trans (mem_freeSymbols_iff hord).symm

/-- The product of `y` and `x`, added to `x`. The two nodes `x` were pushed apart. The plan meets
    the `x` of the sum before the `y` of the product. -/
theorem walks_agree_two_ids :
    let names := ((Table.empty.push (.symbol "x")).2.push (.symbol "x")).2
    let leaves := (names.push (.symbol "y")).2
    let t := ((leaves.push (.operation .mul [2, 1])).2.push (.operation .add [3, 0])).2
    let c : Catalogue := ⟨[(.add, ⟨"Core::Math,add"⟩), (.mul, ⟨"Core::Math,multiply"⟩)]⟩
    t.reachableCount 4 = 5 ∧ (t.tree 4).symbols = ["y", "x", "x"] ∧
      t.freeSymbols 4 = ["y", "x", "x"].eraseDups ∧
      Worklist.count t 4 6 = some 5 ∧ Worklist.symbols t 4 6 = some ["y", "x"] ∧
      ∃ p, t.compile 4 c {} = .ok p ∧ p.inputPorts = ["x", "y"] ∧
        p.inputPorts.Perm (t.freeSymbols 4) := by
  intro names leaves t c
  have hx : Built (Table.empty.push (.symbol "x")).2 :=
    .push .empty (show Table.empty.push? (.symbol "x") = some _ from rfl)
  have hnames : names.Built := hx.push (show Table.push? _ (.symbol "x") = some _ from rfl)
  have hleaves : leaves.Built := hnames.push (show names.push? (.symbol "y") = some _ from rfl)
  have hmul := hleaves.push (show leaves.push? (.operation .mul [2, 1]) = some _ from rfl)
  have ht : t.Built := hmul.push (show Table.push? _ (.operation .add [3, 0]) = some _ from rfl)
  obtain ⟨_, hsymbols, hmachines, hports⟩ := walks_agree ht (show 4 < t.size by decide)
  have htree : (t.tree 4).symbols = ["y", "x", "x"] := by rfl
  have hfive : t.reachableCount 4 = 5 := by decide
  obtain ⟨hcount, hstack⟩ := hmachines 6 (by decide)
  have hplan : (t.compile 4 c {}).toOption.map Plan.inputPorts = some ["x", "y"] := by
    decide +kernel
  refine ⟨hfive, htree, htree ▸ hsymbols, hfive ▸ hcount, hstack.trans (by decide), ?_⟩
  cases hp : t.compile 4 c {} with
  | error failure =>
    rw [hp] at hplan
    cases hplan
  | ok p =>
    rw [hp] at hplan
    exact ⟨p, rfl, Option.some.inj hplan, (hports c {} p hp).2⟩

end Table

end FormulaGraph
