/-
  File:      FormulaGraph/Proofs/History/Renaming.lean
  Subject:   One expression under other ids.

  Two tables may hold one expression under different ids. Nothing the compiler does depends on the
  numbers: it walks from the root along arguments, and compares ids for equality only. So a renaming
  that is one-to-one carries the walk over, and with it the plan.

  * `Plan.rename` -- a plan with other ids;
  * `Table.Renames` -- what is below a root stands in another table too, under new ids;
  * `Renames.preorder`, `Renames.freeSymbols` -- the walk is carried over;
  * `Renames.compile` -- and so is the plan, or the failure;
  * `exists_renames` -- equal trees in tables of interned nodes are renamings of each other.
-/
import FormulaGraph.Proofs.Table.Sharing

namespace FormulaGraph

variable {ρ : Nat → Nat}

/-! ## 1. Plans with other ids -/

def Endpoint.rename (ρ : Nat → Nat) : Endpoint → Endpoint
  | node expr => node (ρ expr)
  | compoundInput name => compoundInput name
  | compoundOutput name => compoundOutput name

def BuildStep.rename (ρ : Nat → Nat) : BuildStep → BuildStep
  | createCompound parent name => createCompound parent name
  | createOutputPort name => createOutputPort name
  | createInputPort name skipExisting => createInputPort name skipExisting
  | createNode expr nodeType => createNode (ρ expr) nodeType
  | setLiteralValue expr value => setLiteralValue (ρ expr) value
  | connect kind source target => connect kind (source.rename ρ) (target.rename ρ)

def PlannedNode.rename (ρ : Nat → Nat) (n : PlannedNode) : PlannedNode :=
  { n with expr := ρ n.expr }

def Link.rename (ρ : Nat → Nat) : Link → Link
  | output source => output (ρ source)
  | input symbol target => input symbol (ρ target)
  | node source target => node (ρ source) (ρ target)

/-- A plan with other ids. -/
def Plan.rename (ρ : Nat → Nat) (p : Plan) : Plan :=
  { p with
    root := ρ p.root
    steps := p.steps.map (BuildStep.rename ρ)
    nodes := p.nodes.map (PlannedNode.rename ρ)
    links := p.links.map (Link.rename ρ) }

theorem PlannedNode.steps_rename (ρ : Nat → Nat) (n : PlannedNode) :
    (n.rename ρ).steps = n.steps.map (BuildStep.rename ρ) := by
  obtain ⟨expr, role, nodeType, value, port⟩ := n
  cases port with
  | some port => rfl
  | none =>
    cases nodeType with
    | none => rfl
    | some type => cases value <;> rfl

theorem Link.step_rename (ρ : Nat → Nat) (link : Link) :
    (link.rename ρ).step = link.step.rename ρ := by
  cases link <;> rfl

/-- A renaming that goes through every call goes through the calls for a list. -/
theorem mapM_map_eq_map {ε α β γ δ : Type} {f : γ → Except ε δ} {g : α → Except ε β} {h : α → γ}
    {r : β → δ} {as : List α} (hcall : ∀ a ∈ as, f (h a) = (g a).map r) :
    (as.map h).mapM f = (as.mapM g).map (List.map r) := by
  induction as with
  | nil => rfl
  | cons a as ih =>
    obtain ⟨hfirst, hrest⟩ := List.forall_mem_cons.mp hcall
    rw [List.map_cons, List.mapM_cons, List.mapM_cons, hfirst, ih hrest]
    cases g a with
    | error e => rfl
    | ok b => cases as.mapM g <;> rfl

namespace Table

variable {t u : Table} {root id : Nat}

/-! ## 2. The walk -/

/-- The nodes below a root stand in another table too, under new ids. -/
structure Renames (ρ : Nat → Nat) (t : Table) (root : Nat) (u : Table) : Prop where
  injective : Function.Injective ρ
  node : ∀ id, t.Below root id → u.node? (ρ id) = (t.node? id).map (Node.rename ρ)

namespace Renames

variable (h : Renames ρ t root u)

include h

theorem args (hb : t.Below root id) : u.args (ρ id) = (t.args id).map ρ := by
  unfold Table.args
  rw [h.node id hb]
  cases t.node? id with
  | none => rfl
  | some node => cases node <;> rfl

theorem symbolName? (hb : t.Below root id) : u.symbolName? (ρ id) = t.symbolName? id := by
  unfold Table.symbolName?
  rw [h.node id hb]
  cases t.node? id with
  | none => rfl
  | some node => cases node <;> rfl

/-- **A visit meets the same nodes in the same order.** -/
theorem visit (ht : t.Ordered) (hu : u.Ordered) : ∀ (levels levels' : Nat) {v v' : Visited}
    {id : Nat}, t.Below root id → id < levels → ρ id < levels' → v.Consistent → v'.Consistent →
    v'.order = v.order.map ρ →
    (u.visit levels' v' (ρ id)).order = (t.visit levels v id).order.map ρ
  | 0, _, _, _, _, _, hl, _, _, _, _ => absurd hl (Nat.not_lt_zero _)
  | _, 0, _, _, _, _, _, hl, _, _, _ => absurd hl (Nat.not_lt_zero _)
  | levels + 1, levels' + 1, v, v', id, hb, hl, hl', hv, hv', horder => by
      have hfold : ∀ (args : List Nat) (v v' : Visited),
          (∀ arg ∈ args, t.Below root arg ∧ arg < levels ∧ ρ arg < levels') → v.Consistent →
          v'.Consistent → v'.order = v.order.map ρ →
          ((args.map ρ).foldl (fun v arg => u.visit levels' v arg) v').order =
            (args.foldl (fun v arg => t.visit levels v arg) v).order.map ρ := by
        intro args
        induction args with
        | nil => exact fun v v' _ _ _ horder => horder
        | cons arg args ih =>
          intro v v' hargs hv hv' horder
          obtain ⟨⟨hb, hlt, hlt'⟩, hargs⟩ := List.forall_mem_cons.mp hargs
          exact ih _ _ hargs (visit_walked ht levels hv hlt).consistent
            (visit_walked hu levels' hv' hlt').consistent
            (visit ht hu levels levels' hb hlt hlt' hv hv' horder)
      -- an id has been met if and only if its new id has
      have hmet : v'.seen.contains (ρ id) = v.seen.contains id := by
        rw [Bool.eq_iff_iff, hv'.seen, hv.seen, horder, List.mem_map_of_injective h.injective]
      unfold Table.visit
      rw [hmet]
      split
      · exact horder
      · rename_i hs
        have hs : v.seen.contains id = false := Bool.eq_false_iff.mpr hs
        rw [h.args hb]
        refine hfold _ _ _ (fun arg ha => ?_) (hv.insert hs) (hv'.insert (hmet.trans hs)) ?_
        · have hlt := ht.args_lt ha
          have hlt' : ρ arg < ρ id := hu.args_lt (h.args hb ▸ List.mem_map_of_mem ha)
          exact ⟨hb.arg ha, by omega, by omega⟩
        · rw [List.map_cons, horder]

theorem preorder (ht : t.Ordered) (hu : u.Ordered) :
    u.preorder (ρ root) = (t.preorder root).map ρ := by
  have hempty : Visited.Consistent {} := ⟨fun id => by simp [IdSet.contains], List.nodup_nil⟩
  unfold Table.preorder
  rw [h.visit ht hu (root + 1) (ρ root + 1) .root (Nat.lt_succ_self _) (Nat.lt_succ_self _) hempty
    hempty rfl, List.map_reverse]

theorem reachableCount (ht : t.Ordered) (hu : u.Ordered) :
    u.reachableCount (ρ root) = t.reachableCount root := by
  unfold Table.reachableCount
  rw [h.preorder ht hu, List.length_map]

theorem freeSymbols (ht : t.Ordered) (hu : u.Ordered) :
    u.freeSymbols (ρ root) = t.freeSymbols root := by
  unfold Table.freeSymbols
  rw [h.preorder ht hu, List.filterMap_map]
  refine congrArg List.eraseDups (List.filterMap_congr fun id hm => ?_)
  exact h.symbolName? ((mem_preorder_iff ht).mp hm)

/-! ## 3. The plan -/

/-- What is collected on the walk is carried over, if it is at each node. -/
theorem flatMap_preorder {α : Type} {f g : Nat → List α} {r : α → α} (ht : t.Ordered)
    (hu : u.Ordered) (hnode : ∀ id, t.Below root id → g (ρ id) = (f id).map r) :
    (u.preorder (ρ root)).flatMap g = ((t.preorder root).flatMap f).map r := by
  have hall : ∀ ids : List Nat, (∀ id ∈ ids, t.Below root id) →
      (ids.map ρ).flatMap g = (ids.flatMap f).map r := by
    intro ids
    induction ids with
    | nil => exact fun _ => rfl
    | cons id ids ih =>
      intro hids
      obtain ⟨hb, hids⟩ := List.forall_mem_cons.mp hids
      rw [List.map_cons, List.flatMap_cons, List.flatMap_cons, List.map_append, hnode id hb,
        ih hids]
  rw [h.preorder ht hu]
  exact hall _ fun id hm => (mem_preorder_iff ht).mp hm

theorem creationOrder (ht : t.Ordered) (hu : u.Ordered) :
    u.creationOrder (ρ root) = (t.creationOrder root).map ρ := by
  unfold Table.creationOrder
  rw [h.flatMap_preorder (f := fun id => id :: t.args id) ht hu fun id hb => by
    rw [h.args hb, List.map_cons], eraseDups_map h.injective]

theorem uses (ht : t.Ordered) (hu : u.Ordered) :
    u.uses (ρ root) = (t.uses root).map fun use => (ρ use.1, ρ use.2) := by
  refine h.flatMap_preorder ht hu fun id hb => ?_
  rw [h.args hb, List.map_map, List.map_map]
  rfl

theorem creations (ht : t.Ordered) (hu : u.Ordered) :
    u.creations (ρ root) = (t.creations root).map fun made => (ρ made.1, made.2.rename ρ) := by
  have hall : ∀ ids : List Nat, (∀ id ∈ ids, t.Below root id) →
      (ids.map ρ).filterMap (fun id => (u.node? id).map (id, ·)) =
        (ids.filterMap fun id => (t.node? id).map (id, ·)).map
          fun made => (ρ made.1, made.2.rename ρ) := by
    intro ids
    induction ids with
    | nil => exact fun _ => rfl
    | cons id ids ih =>
      intro hids
      obtain ⟨hb, hids⟩ := List.forall_mem_cons.mp hids
      rw [List.map_cons, List.filterMap_cons, List.filterMap_cons, h.node id hb, ih hids]
      cases t.node? id <;> rfl
  unfold Table.creations
  rw [h.creationOrder ht hu]
  exact hall _ fun id hm => (mem_creationOrder_iff ht).mp hm

theorem linkOf {source target : Nat} (hb : t.Below root source) :
    u.linkOf (ρ source) (ρ target) = (t.linkOf source target).rename ρ := by
  unfold Table.linkOf
  rw [h.symbolName? hb]
  cases t.symbolName? source <;> rfl

theorem linksOf (ht : t.Ordered) (hu : u.Ordered) :
    u.linksOf (ρ root) = (t.linksOf root).map (Link.rename ρ) := by
  have hlinks : (u.uses (ρ root)).map (fun use => u.linkOf use.1 use.2) =
      ((t.uses root).map fun use => t.linkOf use.1 use.2).map (Link.rename ρ) := by
    rw [h.uses ht hu, List.map_map, List.map_map]
    refine List.map_congr_left fun use hm => ?_
    obtain ⟨hb, ha⟩ := (mem_uses_iff ht).mp hm
    exact h.linkOf (hb.arg ha)
  unfold Table.linksOf
  rw [h.symbolName? .root, hlinks]
  cases t.symbolName? root <;> rfl

theorem wireSteps (ht : t.Ordered) (hu : u.Ordered) :
    u.wireSteps (ρ root) = (t.wireSteps root).map (BuildStep.rename ρ) := by
  unfold Table.wireSteps
  rw [h.symbolName? .root, h.linksOf ht hu, List.map_map]
  cases t.symbolName? root with
  | some name => rfl
  | none =>
    refine (List.map_congr_left fun link _ => ?_).trans (List.map_map ..).symm
    exact link.step_rename ρ

omit h in
theorem planNode (c : Catalogue) (id : Nat) (node : Node) :
    Table.planNode c (ρ id) (node.rename ρ) =
      (Table.planNode c id node).map (PlannedNode.rename ρ) := by
  have htyped : ∀ (kind : Operator) (value : Option Float),
      planTyped c (ρ id) kind value = (planTyped c id kind value).map (PlannedNode.rename ρ) := by
    intro kind value
    unfold planTyped
    cases c.resolve? kind <;> rfl
  cases node with
  | symbol name => rfl
  | literal value => exact htyped _ _
  | operation op args => exact htyped _ _

theorem planNodes (ht : t.Ordered) (hu : u.Ordered) (c : Catalogue) :
    (u.creations (ρ root)).mapM (fun (id, node) => Table.planNode c id node) =
      ((t.creations root).mapM fun (id, node) => Table.planNode c id node).map
        (List.map (PlannedNode.rename ρ)) := by
  rw [h.creations ht hu]
  exact mapM_map_eq_map fun made _ => planNode c made.1 made.2

/-- **The plan is the same plan under new ids**, and a failure is the same failure. -/
theorem compile (ht : t.Ordered) (hu : u.Ordered) (c : Catalogue) (o : CompoundOptions) :
    u.compile (ρ root) c o = (t.compile root c o).map (Plan.rename ρ) := by
  have hsteps : ∀ nodes : List PlannedNode, (nodes.map (PlannedNode.rename ρ)).flatMap
      PlannedNode.steps = (nodes.flatMap PlannedNode.steps).map (BuildStep.rename ρ) := by
    intro nodes
    rw [List.flatMap_map, List.map_flatMap]
    exact List.flatMap_congr fun n _ => n.steps_rename ρ
  unfold Table.compile
  rw [h.reachableCount ht hu]
  split
  · rfl
  · show (List.mapM _ _ >>= _) = Except.map _ (List.mapM _ _ >>= _)
    rw [h.planNodes ht hu c]
    generalize (List.mapM _ (t.creations root) : Except Failure (List PlannedNode)) = planned
    cases planned with
    | error f => rfl
    | ok nodes =>
      refine congrArg Except.ok ?_
      show Plan.mk _ _ _ _ _ _ _ = Plan.mk _ _ _ _ _ _ _
      rw [hsteps, h.wireSteps ht hu, h.linksOf ht hu]
      simp only [List.map_cons, List.map_append, BuildStep.rename]

end Renames

/-! ## 4. Equal trees -/

/-- The id in a second table that has the tree of an id in a first one; ids without one are kept
    apart from all ids of the second table. -/
noncomputable def counterpart (t u : Table) (id : Nat) : Nat :=
  open Classical in
  if h : ∃ other, other < u.size ∧ id < t.size ∧ t.tree id = u.tree other then h.choose
  else u.size + id

theorem counterpart_spec {other : Nat} (hid : id < t.size) (hother : other < u.size)
    (htree : t.tree id = u.tree other) :
    counterpart t u id < u.size ∧ t.tree id = u.tree (counterpart t u id) := by
  have hex : ∃ other, other < u.size ∧ id < t.size ∧ t.tree id = u.tree other :=
    ⟨other, hother, hid, htree⟩
  unfold counterpart
  rw [dif_pos hex]
  exact ⟨hex.choose_spec.1, hex.choose_spec.2.2⟩

theorem counterpart_eq (hu : u.Ordered) (hcu : u.Complete) {other : Nat} (hid : id < t.size)
    (hother : other < u.size) (htree : t.tree id = u.tree other) : counterpart t u id = other := by
  obtain ⟨hlt, heq⟩ := counterpart_spec hid hother htree
  exact hcu.eq_of_tree_eq hu hlt hother (heq.symm.trans htree)

theorem counterpart_injective (ht : t.Ordered) (hct : t.Complete) :
    Function.Injective (counterpart t u) := by
  intro a b hab
  unfold counterpart at hab
  split at hab
  · rename_i ha
    split at hab
    · rename_i hb
      obtain ⟨-, halt, htree⟩ := ha.choose_spec
      obtain ⟨-, hblt, htree'⟩ := hb.choose_spec
      exact hct.eq_of_tree_eq ht halt hblt (htree.trans (hab ▸ htree'.symm))
    · have := ha.choose_spec.1
      omega
  · split at hab
    · rename_i hb
      have := hb.choose_spec.1
      omega
    · omega

/-- **Equal trees are one expression under two sets of ids.** -/
theorem exists_renames {root' : Nat} (ht : t.Ordered) (hct : t.Complete) (hu : u.Ordered)
    (hcu : u.Complete) (hr : root < t.size) (hr' : root' < u.size)
    (htree : t.tree root = u.tree root') : ∃ ρ, Renames ρ t root u ∧ ρ root = root' := by
  -- what is below the one root has a counterpart below the other
  have hbelow : ∀ id, t.Below root id → ∃ other, other < u.size ∧ t.tree id = u.tree other := by
    intro id hb
    induction hb with
    | root => exact ⟨root', hr', htree⟩
    | @arg id arg hb ha ih =>
      obtain ⟨other, hother, heq⟩ := ih
      obtain ⟨node, hn⟩ := exists_node (hb.lt_size ht hr)
      obtain ⟨node', hn'⟩ := exists_node hother
      rw [ht.tree_eq hn, hu.tree_eq hn'] at heq
      have harg : t.tree arg ∈ node'.args.map u.tree := by
        rw [← Node.map_args_of_treeOver_eq heq]
        refine List.mem_map_of_mem ?_
        rwa [Table.args, hn] at ha
      obtain ⟨arg', ha', heq'⟩ := List.mem_map.mp harg
      exact ⟨arg', Nat.lt_trans (hu other node' hn' arg' ha') hother, heq'.symm⟩
  refine ⟨counterpart t u, ⟨counterpart_injective ht hct, fun id hb => ?_⟩,
    counterpart_eq hu hcu hr hr' htree⟩
  obtain ⟨other, hother, heq⟩ := hbelow id hb
  have hid := hb.lt_size ht hr
  obtain ⟨node, hn⟩ := exists_node hid
  obtain ⟨node', hn'⟩ := exists_node hother
  rw [counterpart_eq hu hcu hid hother heq, hn, hn']
  rw [ht.tree_eq hn, hu.tree_eq hn'] at heq
  refine congrArg some (Node.rename_eq_of_treeOver_eq (fun a ha b hb' hab => ?_) heq).symm
  exact counterpart_eq hu hcu (Nat.lt_trans (ht id node hn a ha) hid)
    (Nat.lt_trans (hu other node' hn' b hb') hother) hab

end Table

end FormulaGraph
