/-
  File:      FormulaGraph/Proofs/Plan/Worklist.lean
  Subject:   The compiler as a machine with a stack.

  The compiler of plans walks by recursion, lists the order of creation and plans along that list.
  The machine of this file keeps a stack of the ids that are still to be looked at. An id may stand
  on the stack many times; it is looked at when it is first taken off and dropped afterwards.
  Looking at a node plans it, unless an operation that uses it has done so before, then plans its
  arguments, and puts a link for each of them into a queue that is emptied at the end. A queue that
  does not begin at the root is worth a warning. The machine gives the compiler's answer, the
  failures included, after at most one turn for each use of an argument and two more, and never
  warns.

  * `walk` -- the stack, for anything that is done at a node;
  * `visits`, `walk_eq_foldlM` -- what the walk does, in order;
  * `mem_visits_iff`, `visits_eq_preorder` -- the ids it looks at are those below the root, in the
    order of the recursion if arguments are taken from left to right;
  * `Draft`, `compile` -- the machine;
  * `foldlM_visit` -- what it has planned and queued when the stack is empty;
  * `checkQueue_eq` -- the queue begins at the root;
  * `compile_eq` -- it gives the compiler's answer, without a warning.
-/
import Mathlib.Data.List.Flatten
import Mathlib.Data.List.Induction
import Mathlib.Data.List.Perm.Subperm
import FormulaGraph.Report.Basic
import FormulaGraph.Proofs.Emission.Populate

namespace FormulaGraph

namespace Worklist

/-! ## 1. The stack -/

section Walk

variable {m : Type → Type} [Monad m] {σ : Type}

/-- Takes ids off a stack until it is empty. An id that has not been seen is looked at, and what is
    next to it goes on top of the stack. There is no result if the turns do not suffice. -/
def walk (next : Nat → List Nat) (look : σ → Nat → m σ) :
    (turns : Nat) → (stack seen : List Nat) → σ → m (Option σ)
  | 0, _, _, _ => pure none
  | _ + 1, [], _, s => pure (some s)
  | turns + 1, id :: stack, seen, s =>
    if id ∈ seen then walk next look turns stack seen s
    else do
      let s ← look s id
      walk next look turns (next id ++ stack) (id :: seen) s

/-- The ids that a walk looks at, in order. -/
def visits (next : Nat → List Nat) : (turns : Nat) → (stack seen : List Nat) → List Nat
  | 0, _, _ => []
  | _ + 1, [], _ => []
  | turns + 1, id :: stack, seen =>
    if id ∈ seen then visits next turns stack seen
    else id :: visits next turns (next id ++ stack) (id :: seen)

/-- The turns of a walk suffice: each takes off an id that was on the stack at the start or was put
    there when a node was looked at, and one finds the stack empty. -/
def Suffices (next : Nat → List Nat) (turns : Nat) (stack seen : List Nat) : Prop :=
  stack.length + ((visits next turns stack seen).flatMap next).length < turns

variable {next : Nat → List Nat} {turns id : Nat} {stack seen : List Nat}

theorem visits_of_mem (h : id ∈ seen) :
    visits next (turns + 1) (id :: stack) seen = visits next turns stack seen := by
  rw [visits, if_pos h]

theorem visits_of_notMem (h : id ∉ seen) :
    visits next (turns + 1) (id :: stack) seen =
      id :: visits next turns (next id ++ stack) (id :: seen) := by
  rw [visits, if_neg h]

theorem Suffices.of_mem (h : id ∈ seen) (hs : Suffices next (turns + 1) (id :: stack) seen) :
    Suffices next turns stack seen := by
  rw [Suffices, visits_of_mem h, List.length_cons] at hs
  rw [Suffices]
  omega

theorem Suffices.of_notMem (h : id ∉ seen) (hs : Suffices next (turns + 1) (id :: stack) seen) :
    Suffices next turns (next id ++ stack) (id :: seen) := by
  rw [Suffices, visits_of_notMem h, List.flatMap_cons, List.length_cons, List.length_append] at hs
  rw [Suffices, List.length_append]
  omega

/-- **A walk whose turns suffice looks at its visits, one after the other.** -/
theorem walk_eq_foldlM [LawfulMonad m] {look : σ → Nat → m σ} {s : σ}
    (h : Suffices next turns stack seen) :
    walk next look turns stack seen s = some <$> (visits next turns stack seen).foldlM look s := by
  induction turns generalizing stack seen s with
  | zero => exact absurd h (Nat.not_lt_zero _)
  | succ turns ih =>
    cases stack with
    | nil => simp [walk, visits]
    | cons id stack =>
      by_cases hm : id ∈ seen
      · rw [walk, if_pos hm, visits_of_mem hm, ih (h.of_mem hm)]
      · rw [walk, if_neg hm, visits_of_notMem hm, List.foldlM_cons, map_bind]
        exact bind_congr fun _ => ih (h.of_notMem hm)

theorem notMem_seen_of_mem_visits (h : id ∈ visits next turns stack seen) : id ∉ seen := by
  fun_induction visits next turns stack seen with
  | case1 => cases h
  | case2 => cases h
  | case3 turns first stack seen hm ih => exact ih h
  | case4 turns first stack seen hm ih =>
    rcases List.mem_cons.mp h with rfl | h
    · exact hm
    · exact fun hs => ih h (List.mem_cons_of_mem _ hs)

theorem nodup_visits (next : Nat → List Nat) (turns : Nat) (stack seen : List Nat) :
    (visits next turns stack seen).Nodup := by
  fun_induction visits next turns stack seen with
  | case1 => exact List.nodup_nil
  | case2 => exact List.nodup_nil
  | case3 turns first stack seen hm ih => exact ih
  | case4 turns first stack seen hm ih =>
    exact List.nodup_cons.mpr ⟨fun h => notMem_seen_of_mem_visits h List.mem_cons_self, ih⟩

/-- What was on the stack is looked at, and with each node what is next to it, unless it was seen
    before. -/
theorem closed_visits (h : Suffices next turns stack seen) :
    (∀ id ∈ stack, id ∈ seen ∨ id ∈ visits next turns stack seen) ∧
      ∀ id ∈ visits next turns stack seen, ∀ other ∈ next id,
        other ∈ seen ∨ other ∈ visits next turns stack seen := by
  fun_induction visits next turns stack seen with
  | case1 => exact absurd h (Nat.not_lt_zero _)
  | case2 => simp
  | case3 turns first stack seen hm ih =>
    obtain ⟨hstack, hnext⟩ := ih (h.of_mem hm)
    refine ⟨fun id hid => ?_, hnext⟩
    rcases List.mem_cons.mp hid with rfl | hid
    · exact .inl hm
    · exact hstack id hid
  | case4 turns first stack seen hm ih =>
    obtain ⟨hstack, hnext⟩ := ih (h.of_notMem hm)
    -- `first` was not seen before and is now the first that is looked at
    have hmove : ∀ id, id ∈ first :: seen ∨
          id ∈ visits next turns (next first ++ stack) (first :: seen) →
        id ∈ seen ∨ id ∈ first :: visits next turns (next first ++ stack) (first :: seen) := by
      intro id hid
      simp only [List.mem_cons] at hid ⊢
      tauto
    constructor
    · intro id hid
      rcases List.mem_cons.mp hid with rfl | hid
      · exact .inr List.mem_cons_self
      · exact hmove id (hstack id (List.mem_append_right _ hid))
    · intro id hid other ho
      rcases List.mem_cons.mp hid with rfl | hid
      · exact hmove other (hstack other (List.mem_append_left _ ho))
      · exact hmove other (hnext id hid other ho)

end Walk

/-! ## 2. The stack over a table -/

section Order

variable {t : Table} {root : Nat} {next : Nat → List Nat} {turns id : Nat}

theorem below_of_mem_visits (hnext : ∀ id, ∀ arg ∈ next id, arg ∈ t.args id) {stack seen : List Nat}
    (hstack : ∀ id ∈ stack, t.Below root id) (h : id ∈ visits next turns stack seen) :
    t.Below root id := by
  fun_induction visits next turns stack seen with
  | case1 => cases h
  | case2 => cases h
  | case3 turns first stack seen hm ih =>
    exact ih (fun id hid => hstack id (List.mem_cons_of_mem _ hid)) h
  | case4 turns first stack seen hm ih =>
    have hfirst := hstack first List.mem_cons_self
    rcases List.mem_cons.mp h with rfl | h
    · exact hfirst
    · refine ih (fun id hid => ?_) h
      rcases List.mem_append.mp hid with hid | hid
      · exact hfirst.arg (hnext first id hid)
      · exact hstack id (List.mem_cons_of_mem _ hid)

/-- **One turn for each use of an argument suffices, with one for the root and one for the end.** No
    node is looked at twice, so no use of an argument is put on the stack twice. -/
theorem suffices_root (ht : t.Ordered) (hnext : ∀ id, (next id).Perm (t.args id))
    (h : (t.uses root).length + 2 ≤ turns) : Suffices next turns [root] [] := by
  have hsub : (visits next turns [root] []).Subperm (t.preorder root) := by
    refine List.Nodup.subperm (nodup_visits _ _ _ _) fun id hid =>
      (Table.mem_preorder_iff ht).mpr ?_
    refine below_of_mem_visits (fun id arg ha => (hnext id).mem_iff.mp ha) (fun id hid => ?_) hid
    rw [List.mem_singleton.mp hid]
    exact .root
  obtain ⟨ids, hperm, hsub⟩ := hsub
  have hle : ((visits next turns [root] []).flatMap next).length ≤ (t.uses root).length :=
    calc ((visits next turns [root] []).flatMap next).length
        = (ids.flatMap next).length := (hperm.symm.flatMap_right next).length_eq
      _ ≤ ((t.preorder root).flatMap next).length := (hsub.flatMap next).length_le
      _ = (t.uses root).length := by
          simp only [Table.uses, List.length_flatMap, List.length_map, (hnext _).length_eq]
  rw [Suffices, List.length_singleton]
  omega

/-- **A walk from the root looks at what is below it.** -/
theorem mem_visits_iff (hnext : ∀ id, (next id).Perm (t.args id))
    (h : Suffices next turns [root] []) : id ∈ visits next turns [root] [] ↔ t.Below root id := by
  obtain ⟨hstack, hclosed⟩ := closed_visits h
  constructor
  · refine below_of_mem_visits (fun id arg ha => (hnext id).mem_iff.mp ha) fun id hid => ?_
    rw [List.mem_singleton.mp hid]
    exact .root
  · intro hb
    induction hb with
    | root => simpa using hstack root List.mem_cons_self
    | @arg id arg _ ha ih => simpa using hclosed id ih arg ((hnext id).mem_iff.mpr ha)

/-- More levels than are needed change nothing. -/
theorem visit_succ (ht : t.Ordered) : ∀ {levels : Nat} {v : Table.Visited} {id : Nat}, id < levels →
    t.visit (levels + 1) v id = t.visit levels v id
  | 0, _, _, h => absurd h (Nat.not_lt_zero _)
  | levels + 1, v, id, h => by
      rw [Table.visit, Table.visit]
      split
      · rfl
      · refine List.foldl_ext _ _ _ fun v arg ha => visit_succ ht ?_
        have := ht.args_lt ha
        omega

/-- Visiting a new node puts its arguments before what is still to be visited. -/
theorem foldl_visit_cons (ht : t.Ordered) {levels : Nat} {v : Table.Visited} {stack : List Nat}
    (hid : id < levels) (hs : v.seen.contains id = false) :
    (id :: stack).foldl (t.visit levels) v =
      (t.args id ++ stack).foldl (t.visit levels) ⟨v.seen.insert id, id :: v.order⟩ := by
  cases levels with
  | zero => exact absurd hid (Nat.not_lt_zero _)
  | succ levels =>
    have hvisit : t.visit (levels + 1) v id =
        (t.args id).foldl (t.visit (levels + 1)) ⟨v.seen.insert id, id :: v.order⟩ := by
      rw [Table.visit, hs]
      refine List.foldl_ext _ _ _ fun v arg ha => (visit_succ ht ?_).symm
      have := ht.args_lt ha
      omega
    rw [List.foldl_cons, hvisit, List.foldl_append]

/-- The stack replaces the recursion: what is looked at is what visiting the members of the stack
    one after the other adds. -/
theorem order_foldl_visit (ht : t.Ordered) {levels : Nat} {stack : List Nat} {v : Table.Visited}
    (hv : v.Consistent) (hlt : ∀ id ∈ stack, id < levels)
    (h : Suffices t.args turns stack v.order) :
    (stack.foldl (t.visit levels) v).order.reverse =
      v.order.reverse ++ visits t.args turns stack v.order := by
  induction turns generalizing stack v with
  | zero => exact absurd h (Nat.not_lt_zero _)
  | succ turns ih =>
    cases stack with
    | nil => simp [visits]
    | cons id stack =>
      obtain ⟨hid, hlt⟩ := List.forall_mem_cons.mp hlt
      by_cases hm : id ∈ v.order
      · have hvisit : t.visit levels v id = v := by
          cases levels with
          | zero => rfl
          | succ levels => rw [Table.visit, if_pos ((hv.seen id).mpr hm)]
        rw [List.foldl_cons, hvisit, ih hv hlt (h.of_mem hm), visits_of_mem hm]
      · have hs : v.seen.contains id = false := Bool.eq_false_iff.mpr (mt (hv.seen id).mp hm)
        have hlt' : ∀ other ∈ t.args id ++ stack, other < levels := by
          intro other ho
          rcases List.mem_append.mp ho with ho | ho
          · exact Nat.lt_trans (ht.args_lt ho) hid
          · exact hlt other ho
        rw [foldl_visit_cons ht hid hs, ih (hv.insert hs) hlt' (h.of_notMem hm),
          visits_of_notMem hm, List.reverse_cons, List.append_assoc, List.singleton_append]

/-- **Taking arguments from left to right, the stack gives the order of the recursion.** -/
theorem visits_eq_preorder (ht : t.Ordered) (h : Suffices t.args turns [root] []) :
    visits t.args turns [root] [] = t.preorder root := by
  have hempty : Table.Visited.Consistent {} := ⟨fun id => by simp [IdSet.contains], List.nodup_nil⟩
  have hlt : ∀ id ∈ [root], id < root + 1 := by simp
  exact (order_foldl_visit ht hempty hlt h).symm

/-- The first use is one in the root: the root is looked at first, and if it has no arguments there
    is nothing else to look at. -/
theorem snd_of_mem_head?_uses (ht : t.Ordered) {use : Nat × Nat} (h : use ∈ (t.uses root).head?) :
    use.2 = root := by
  have hsuff : Suffices t.args ((t.uses root).length + 2) [root] [] :=
    suffices_root ht (fun id => List.Perm.refl (t.args id)) (Nat.le_refl _)
  rw [Table.uses, ← visits_eq_preorder ht hsuff, visits_of_notMem List.not_mem_nil,
    List.flatMap_cons, List.append_nil] at h
  cases hargs : t.args root with
  | nil =>
    rw [hargs, visits] at h
    cases h
  | cons arg args =>
    rw [hargs] at h
    cases h
    rfl

end Order

/-! ## 3. The machine -/

/-- What has been planned so far, and the uses whose links are still to be made. -/
structure Draft where
  steps : List BuildStep
  nodes : List PlannedNode := []
  queue : List (Nat × Nat) := []

/-- The draft before the first node: the compound and its output. -/
def Draft.start (o : CompoundOptions) : Draft where
  steps := [.createCompound o.parent o.name, .createOutputPort outputPortName]

/-- Plans an expression, unless that has been done. -/
def Draft.create (t : Table) (c : Catalogue) (d : Draft) (id : Nat) : Except Failure Draft :=
  if d.nodes.any (·.expr == id) then .ok d
  else
    match t.node? id with
    | none => .ok d
    | some node => do
      let n ← Table.planNode c id node
      return { d with steps := d.steps ++ n.steps, nodes := d.nodes ++ [n] }

/-- Puts a use into the queue. -/
def Draft.enqueue (d : Draft) (arg id : Nat) : Draft := { d with queue := d.queue ++ [(arg, id)] }

/-- Plans an expression and its arguments, and puts the uses of the arguments into the queue. -/
def Draft.visit (t : Table) (c : Catalogue) (d : Draft) (id : Nat) : Except Failure Draft := do
  let d ← d.create t c id
  (t.args id).foldlM (fun d arg => return (← d.create t c arg).enqueue arg id) d

/-- The port of an expression that was planned as one. -/
def Draft.port? (d : Draft) (id : Nat) : Option String :=
  (d.nodes.find? (·.expr == id)).bind (·.port)

/-- The links of the uses in the queue, behind the link of the root. -/
def Draft.links (d : Draft) (root : Nat) : List Link :=
  match d.port? root with
  | some _ => []
  | none =>
    .output root :: d.queue.map fun use =>
      match d.port? use.1 with
      | some name => .input name use.2
      | none => .node use.1 use.2

/-- The wires of the links, or from input to output if the root is a port. -/
def Draft.wires (d : Draft) (root : Nat) : List BuildStep :=
  match d.port? root with
  | some name => [.connect .inputToOutput (.compoundInput name) (.compoundOutput outputPortName)]
  | none => (d.links root).map Link.step

/-- Reports a queue that does not begin with a use in the root. The queue of a root that is a port
    is not looked at. -/
def Draft.checkQueue (d : Draft) (root : Nat) (r : Report) : Report :=
  match d.port? root, d.queue.head? with
  | none, some (_, head) =>
    if head = root then r
    else
      r.warning
        s!"The first queued connection targets #{head} rather than the expression root #{root}."
  | _, _ => r

/-- The plan when the stack is empty. -/
def Draft.plan (d : Draft) (root : Nat) (o : CompoundOptions) : Plan where
  compoundName := o.name
  parent := o.parent
  outputPort := outputPortName
  root := root
  steps := d.steps ++ d.wires root
  nodes := d.nodes
  links := d.links root

/-- The ids below the root, counted with a stack that takes the last argument first. -/
def count (t : Table) (root turns : Nat) : Option Nat :=
  walk (m := Id) (fun id => (t.args id).reverse) (fun n _ => n + 1) turns [root] [] 0

/-- The plan of the expression `root`, if the turns suffice, and the report with what there is to
    warn of. -/
def compile (t : Table) (root : Nat) (c : Catalogue) (o : CompoundOptions) (turns : Nat)
    (r : Report) : Except Failure (Option (Plan × Report)) := do
  let some size := count t root turns | return none
  if o.maxNodes < size then throw (.tooLarge size o.maxNodes)
  let some d ← walk t.args (Draft.visit t c) turns [root] [] (Draft.start o) | return none
  return some (d.plan root o, d.checkQueue root r)

/-! ## 4. What the machine has planned -/

section Draft

variable {t : Table} {root : Nat} {c : Catalogue} {o : CompoundOptions}

/-- What is planned for a list of expressions. -/
def planAll (t : Table) (c : Catalogue) (ids : List Nat) : Except Failure (List PlannedNode) :=
  (ids.filterMap fun id => (t.node? id).map (id, ·)).mapM fun e => Table.planNode c e.1 e.2

theorem planAll_append (ids more : List Nat) :
    planAll t c (ids ++ more) = do
      let nodes ← planAll t c ids
      let rest ← planAll t c more
      return nodes ++ rest := by
  simp [planAll]

theorem planAll_singleton_of_none {id : Nat} (h : t.node? id = none) :
    planAll t c [id] = .ok [] := by
  simp [planAll, h]
  rfl

theorem planAll_singleton {id : Nat} {node : Node} (h : t.node? id = some node) :
    planAll t c [id] = do
      let n ← Table.planNode c id node
      return [n] := by
  simp [planAll, h]

/-- The planned node of an expression is found by its id. -/
theorem find?_planned {es : List (Nat × Node)} {nodes : List PlannedNode}
    (h : List.Forall₂ (fun e n => Table.planNode c e.1 e.2 = .ok n) es nodes) (id : Nat) :
    (nodes.find? (·.expr == id)).bind (·.port) = (es.find? (·.1 == id)).bind (·.2.symbol?) := by
  induction h with
  | nil => rfl
  | @cons e n es nodes he _ ih =>
    rw [List.find?_cons, List.find?_cons, expr_of_planNode he]
    cases e.1 == id with
    | true => exact port_of_planNode he
    | false => exact ih

theorem symbolName?_of_node? {id : Nat} {node : Node} (h : t.node? id = some node) :
    t.symbolName? id = node.symbol? := by
  rw [Table.symbolName?, h]
  cases node <;> rfl

theorem find?_creations (ht : t.Ordered) (hr : root < t.size) {id : Nat} (hb : t.Below root id) :
    ((t.creations root).find? (·.1 == id)).bind (·.2.symbol?) = t.symbolName? id := by
  obtain ⟨node, hn⟩ := Table.exists_node (hb.lt_size ht hr)
  have hsome : ((t.creations root).find? (·.1 == id)).isSome := by
    rw [List.find?_isSome]
    exact ⟨(id, node), (Table.mem_creations_iff ht).mpr ⟨hb, hn⟩, beq_self_eq_true id⟩
  obtain ⟨e, he⟩ := Option.isSome_iff_exists.mp hsome
  have hid : e.1 = id := by simpa using List.find?_some he
  have hnode := ((Table.mem_creations_iff ht).mp (List.mem_of_find?_eq_some he)).2
  rw [he, ← hid, symbolName?_of_node? hnode]
  rfl

theorem map_expr_planned {es : List (Nat × Node)} {nodes : List PlannedNode}
    (h : List.Forall₂ (fun e n => Table.planNode c e.1 e.2 = .ok n) es nodes) :
    nodes.map (·.expr) = es.map Prod.fst := by
  induction h with
  | nil => rfl
  | cons he _ ih => rw [List.map_cons, List.map_cons, expr_of_planNode he, ih]

theorem any_expr_planAll {ids : List Nat} {nodes : List PlannedNode}
    (h : planAll t c ids = .ok nodes) {id : Nat} :
    nodes.any (·.expr == id) = true ↔ id ∈ ids ∧ (t.node? id).isSome := by
  have hmem : nodes.any (·.expr == id) = true ↔ id ∈ nodes.map (·.expr) := by
    simp [List.any_eq_true]
  rw [hmem, map_expr_planned (forall₂_of_mapM_ok h)]
  simp [Option.isSome_iff_exists]

theorem create_of_any {d : Draft} {id : Nat} (h : d.nodes.any (·.expr == id) = true) :
    d.create t c id = .ok d :=
  if_pos h

theorem create_of_none {d : Draft} {id : Nat} (h : t.node? id = none) :
    d.create t c id = .ok d := by
  rw [Draft.create, h, ite_self]

theorem create_of_new {d : Draft} {id : Nat} {node : Node}
    (hd : ¬ d.nodes.any (·.expr == id) = true) (h : t.node? id = some node) :
    d.create t c id = do
      let n ← Table.planNode c id node
      return { d with steps := d.steps ++ n.steps, nodes := d.nodes ++ [n] } := by
  rw [Draft.create, if_neg hd, h]

/-- The draft after some expressions were planned, in this order and some of them perhaps again, and
    some uses were put into the queue; or the failure of the first that cannot be planned. -/
def drafted (t : Table) (c : Catalogue) (o : CompoundOptions) (ids : List Nat)
    (queue : List (Nat × Nat)) : Except Failure Draft := do
  let nodes ← planAll t c ids.eraseDups
  return { steps := (Draft.start o).steps ++ nodes.flatMap PlannedNode.steps, nodes, queue }

theorem drafted_create (ids : List Nat) (queue : List (Nat × Nat)) (id : Nat) :
    (drafted t c o ids queue >>= fun d => d.create t c id) = drafted t c o (ids ++ [id]) queue := by
  unfold drafted
  rw [eraseDups_concat]
  by_cases hm : id ∈ ids
  · -- it has been planned before, or is no expression of the table
    rw [if_pos hm, bind_assoc]
    refine bind_congr_ok fun nodes hp => ?_
    rw [pure_bind]
    cases hn : t.node? id with
    | none => exact create_of_none hn
    | some node =>
      exact create_of_any ((any_expr_planAll hp).mpr ⟨List.mem_eraseDups.mpr hm, by rw [hn]; rfl⟩)
  · rw [if_neg hm, planAll_append, bind_assoc, bind_assoc]
    refine bind_congr_ok fun nodes hp => ?_
    rw [pure_bind]
    cases hn : t.node? id with
    | none =>
      rw [planAll_singleton_of_none hn, create_of_none hn, ← List.append_nil nodes]
      simp
    | some node =>
      have hnew : ¬ nodes.any (·.expr == id) = true := fun hany =>
        hm (List.mem_eraseDups.mp ((any_expr_planAll hp).mp hany).1)
      rw [planAll_singleton hn, create_of_new hnew hn]
      simp

/-- One argument: it is planned, and its use goes into the queue. -/
theorem drafted_use (ids : List Nat) (queue : List (Nat × Nat)) (arg id : Nat) :
    (drafted t c o ids queue >>= fun d => do return (← d.create t c arg).enqueue arg id) =
      drafted t c o (ids ++ [arg]) (queue ++ [(arg, id)]) := by
  have hcreate := congrArg (· >>= fun d => pure (d.enqueue arg id))
    (drafted_create (t := t) (c := c) (o := o) ids queue arg)
  rw [bind_assoc] at hcreate
  refine hcreate.trans ?_
  simp only [drafted, bind_assoc, pure_bind]
  rfl

theorem drafted_uses (args : List Nat) (ids : List Nat) (queue : List (Nat × Nat)) (id : Nat) :
    (drafted t c o ids queue >>= fun d =>
        args.foldlM (fun d arg => do return (← d.create t c arg).enqueue arg id) d) =
      drafted t c o (ids ++ args) (queue ++ args.map (·, id)) := by
  induction args generalizing ids queue with
  | nil => simp
  | cons arg args ih =>
    simp only [List.foldlM_cons]
    rw [← bind_assoc, drafted_use, ih, List.append_assoc, List.append_assoc]
    rfl

/-- **One node.** It is planned with its arguments, and the uses of the arguments are queued. -/
theorem drafted_visit (ids : List Nat) (queue : List (Nat × Nat)) (id : Nat) :
    (drafted t c o ids queue >>= fun d => d.visit t c id) =
      drafted t c o (ids ++ id :: t.args id) (queue ++ (t.args id).map (·, id)) := by
  simp only [Draft.visit]
  rw [← bind_assoc, drafted_create, drafted_uses, List.append_assoc, List.singleton_append]

/-- **A run.** What was visited is planned and queued, each node with its arguments. -/
theorem drafted_visits (ids done : List Nat) (queue : List (Nat × Nat)) :
    (drafted t c o done queue >>= fun d => ids.foldlM (Draft.visit t c) d) =
      drafted t c o (done ++ ids.flatMap fun id => id :: t.args id)
        (queue ++ ids.flatMap fun id => (t.args id).map (·, id)) := by
  induction ids generalizing done queue with
  | nil => simp
  | cons id ids ih =>
    simp only [List.foldlM_cons]
    rw [← bind_assoc, drafted_visit, ih, List.append_assoc, List.append_assoc, List.flatMap_cons,
      List.flatMap_cons]

/-- When the stack is empty, the order of creation has been planned and all uses are queued. -/
theorem foldlM_visit (t : Table) (root : Nat) (c : Catalogue) (o : CompoundOptions) :
    (t.preorder root).foldlM (Draft.visit t c) (Draft.start o) = do
      let nodes ← (t.creations root).mapM fun e => Table.planNode c e.1 e.2
      return { steps := (Draft.start o).steps ++ nodes.flatMap PlannedNode.steps, nodes,
               queue := t.uses root } :=
  drafted_visits (t.preorder root) [] []

end Draft

/-! ## 5. The machine's answer -/

section Answer

variable {t : Table} {root : Nat} {c : Catalogue} {o : CompoundOptions} {turns : Nat}

/-- The last argument first: the count is the same. -/
theorem count_eq (ht : t.Ordered) (h : (t.uses root).length + 2 ≤ turns) :
    count t root turns = some (t.reachableCount root) := by
  have hnext : ∀ id, (t.args id).reverse.Perm (t.args id) := fun id => List.reverse_perm _
  have hsuff := suffices_root ht hnext h
  have hperm : (visits (fun id => (t.args id).reverse) turns [root] []).Perm (t.preorder root) := by
    refine (List.perm_ext_iff_of_nodup (nodup_visits _ _ _ _) (Table.nodup_preorder ht)).mpr ?_
    intro id
    rw [mem_visits_iff hnext hsuff, Table.mem_preorder_iff ht]
  have hlength : ∀ (ids : List Nat) (n : Nat),
      ids.foldlM (m := Id) (fun n _ => n + 1) n = n + ids.length := by
    intro ids
    induction ids with
    | nil => exact fun n => rfl
    | cons id ids ih =>
      intro n
      rw [List.foldlM_cons, List.length_cons, Nat.add_comm ids.length, ← Nat.add_assoc]
      exact ih (n + 1)
  refine (walk_eq_foldlM (m := Id) hsuff).trans ?_
  rw [hlength, Nat.zero_add, hperm.length_eq]
  rfl

/-- Ports are known by the names of symbols, so the queue gives the links of the uses. -/
theorem links_eq (ht : t.Ordered) (hr : root < t.size) {d : Draft}
    (hd : List.Forall₂ (fun e n => Table.planNode c e.1 e.2 = .ok n) (t.creations root) d.nodes)
    (hq : d.queue = t.uses root) :
    d.links root = t.linksOf root ∧ d.wires root = t.wireSteps root := by
  have hport : ∀ id, t.Below root id → d.port? id = t.symbolName? id := fun id hb =>
    (find?_planned hd id).trans (find?_creations ht hr hb)
  have hlinks : d.links root = t.linksOf root := by
    rw [Draft.links, Table.linksOf, hport root .root, hq]
    cases t.symbolName? root with
    | some name => rfl
    | none =>
      refine congrArg (Link.output root :: ·) (List.map_congr_left fun use hu => ?_)
      have hb := ((Table.mem_uses_iff ht).mp hu).1.arg ((Table.mem_uses_iff ht).mp hu).2
      cases hs : t.symbolName? use.1 <;> simp only [Table.linkOf, hport use.1 hb, hs]
  refine ⟨hlinks, ?_⟩
  cases hs : t.symbolName? root <;>
    simp only [Draft.wires, Table.wireSteps, hport root .root, hs, hlinks]

/-- The queue of all uses is never warned of. -/
theorem checkQueue_eq (ht : t.Ordered) {d : Draft} (hq : d.queue = t.uses root) (r : Report) :
    d.checkQueue root r = r := by
  unfold Draft.checkQueue
  split
  · rename_i head _ hhead
    rw [hq] at hhead
    exact if_pos (snd_of_mem_head?_uses ht hhead)
  · rfl

/-- **The machine gives the compiler's answer**, the plan or the failure, and warns of nothing. -/
theorem compile_eq (ht : t.Ordered) (hr : root < t.size) (h : (t.uses root).length + 2 ≤ turns)
    (r : Report) : compile t root c o turns r = (fun p => some (p, r)) <$> t.compile root c o := by
  have hsuff := suffices_root ht (fun id => List.Perm.refl (t.args id)) h
  unfold compile Table.compile
  rw [count_eq ht h, walk_eq_foldlM hsuff, visits_eq_preorder ht hsuff, foldlM_visit]
  by_cases hlimit : o.maxNodes < t.reachableCount root
  · simp only [hlimit]
    rfl
  · simp only [hlimit]
    cases hp : (t.creations root).mapM fun e => Table.planNode c e.1 e.2 with
    | error f => rfl
    | ok nodes =>
      let d : Draft :=
        ⟨(Draft.start o).steps ++ nodes.flatMap PlannedNode.steps, nodes, t.uses root⟩
      obtain ⟨hlinks, hwires⟩ := links_eq ht hr (d := d) (forall₂_of_mapM_ok hp) rfl
      show Except.ok (some (d.plan root o, d.checkQueue root r)) = _
      rw [checkQueue_eq ht rfl, Draft.plan, hlinks, hwires, List.append_assoc]
      rfl

end Answer

end Worklist

end FormulaGraph
