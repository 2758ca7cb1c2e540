/-
  File:      FormulaGraph/Proofs/Table/Tree.lean
  Subject:   The trees of a table's ids.

  * `Node.treeOver`, `Node.rename` -- a node over the trees of its arguments, and over other ids;
  * `Ordered.tree_eq` -- the tree of an id is its node over the trees of its arguments;
  * `Extends.tree_eq` -- a tree stays as the table grows.
-/
import FormulaGraph.Proofs.Table.Growth
import FormulaGraph.Table.Tree

namespace FormulaGraph

namespace Node

/-- A node over given trees of its arguments. -/
def treeOver (tree : Nat → Tree) : Node → Tree
  | symbol name => .symbol name
  | literal value => .literal value
  | operation op args => .operation op (args.map tree)

/-- A node with other ids for its arguments. -/
def rename (ρ : Nat → Nat) : Node → Node
  | symbol name => symbol name
  | literal value => literal value
  | operation op args => operation op (args.map ρ)

theorem rename_id (node : Node) : node.rename id = node := by
  cases node with
  | symbol name => rfl
  | literal value => rfl
  | operation op args => exact congrArg (operation op) (List.map_id args)

/-- Lists with equal images are told apart by no more than what tells their members apart. -/
theorem map_eq_of_map_eq {α β γ : Type} {f : α → γ} {g : β → γ} {ρ : α → β} :
    ∀ {as : List α} {bs : List β}, (∀ a ∈ as, ∀ b ∈ bs, f a = g b → ρ a = b) →
      as.map f = bs.map g → as.map ρ = bs
  | [], [], _, _ => rfl
  | a :: as, b :: bs, hρ, h => by
      obtain ⟨hhead, htail⟩ := List.cons.inj h
      have hrest := map_eq_of_map_eq (fun a ha b hb =>
        hρ a (List.mem_cons_of_mem _ ha) b (List.mem_cons_of_mem _ hb)) htail
      rw [List.map_cons, hρ a List.mem_cons_self b List.mem_cons_self hhead, hrest]

/-- Two nodes over equal trees differ by the ids of their arguments only. -/
theorem rename_eq_of_treeOver_eq {tree tree' : Nat → Tree} {ρ : Nat → Nat} {node other : Node}
    (hρ : ∀ a ∈ node.args, ∀ b ∈ other.args, tree a = tree' b → ρ a = b)
    (h : node.treeOver tree = other.treeOver tree') : node.rename ρ = other := by
  cases node with
  | symbol name =>
    cases other with
    | symbol name' =>
      cases h
      rfl
    | literal value => cases h
    | operation op args => cases h
  | literal value =>
    cases other with
    | symbol name => cases h
    | literal value' =>
      cases h
      rfl
    | operation op args => cases h
  | operation op args =>
    cases other with
    | symbol name => cases h
    | literal value => cases h
    | operation op' args' =>
      obtain ⟨rfl, hargs⟩ := Tree.operation.inj h
      exact congrArg (operation op) (map_eq_of_map_eq hρ hargs)

/-- Nodes over equal trees have arguments with equal trees. -/
theorem map_args_of_treeOver_eq {tree tree' : Nat → Tree} {node other : Node}
    (h : node.treeOver tree = other.treeOver tree') :
    node.args.map tree = other.args.map tree' := by
  cases node with
  | operation op args =>
    cases other with
    | operation op' args' => exact (Tree.operation.inj h).2
    | _ => cases h
  | _ =>
    cases other with
    | operation op args => cases h
    | _ => rfl

end Node

namespace Table

variable {t t' : Table} {id : Nat}

/-- More levels than the id do not change its tree. -/
theorem Ordered.unfold_eq (h : t.Ordered) {levels levels' : Nat} (hl : id < levels)
    (hl' : id < levels') : t.unfold levels id = t.unfold levels' id := by
  induction levels generalizing levels' id with
  | zero => exact absurd hl (Nat.not_lt_zero _)
  | succ levels ih =>
    cases levels' with
    | zero => exact absurd hl' (Nat.not_lt_zero _)
    | succ levels' =>
      unfold unfold
      split
      · rfl
      · rfl
      · rfl
      · rename_i op args hn
        congr 1
        refine List.map_congr_left fun arg ha => ?_
        have hlt : arg < id := h id _ hn arg ha
        exact ih (by omega) (by omega)

theorem tree_symbol {name : String} (hn : t.node? id = some (.symbol name)) :
    t.tree id = .symbol name := by
  unfold tree unfold
  rw [hn]

theorem tree_literal {value : Literal} (hn : t.node? id = some (.literal value)) :
    t.tree id = .literal value := by
  unfold tree unfold
  rw [hn]

theorem Ordered.tree_operation (h : t.Ordered) {op : Operator} {args : List Nat}
    (hn : t.node? id = some (.operation op args)) :
    t.tree id = .operation op (args.map t.tree) := by
  unfold tree
  rw [unfold, hn]
  show Tree.operation op (args.map fun arg => t.unfold id arg) = _
  congr 1
  refine List.map_congr_left fun arg ha => ?_
  have hlt : arg < id := h id _ hn arg ha
  exact h.unfold_eq hlt (Nat.lt_succ_self arg)

/-- **The tree of an id is its node over the trees of its arguments.** -/
theorem Ordered.tree_eq (h : t.Ordered) {node : Node} (hn : t.node? id = some node) :
    t.tree id = node.treeOver t.tree := by
  cases node with
  | symbol name => exact tree_symbol hn
  | literal value => exact tree_literal hn
  | operation op args => exact h.tree_operation hn

/-- A tree stays as the table grows. -/
theorem Extends.tree_eq (h : t.Extends t') (ho : t.Ordered) (hlt : id < t.size) :
    t'.tree id = t.tree id := by
  have hunfold : ∀ levels id, id < t.size → t'.unfold levels id = t.unfold levels id := by
    intro levels
    induction levels with
    | zero => exact fun _ _ => rfl
    | succ levels ih =>
      intro id hlt
      unfold unfold
      rw [h.node?_eq hlt]
      split
      · rfl
      · rfl
      · rfl
      · rename_i op args hn
        congr 1
        refine List.map_congr_left fun arg ha => ih arg ?_
        exact Nat.lt_trans (ho id _ hn arg ha) hlt
  exact hunfold (id + 1) id hlt

end Table

end FormulaGraph
