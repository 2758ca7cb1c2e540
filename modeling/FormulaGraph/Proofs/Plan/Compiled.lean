/-
  File:      FormulaGraph/Proofs/Plan/Compiled.lean
  Subject:   What compiling an expression answers.

  Three orders decide the answer. The tree that the root stands for, listed from the root down and
  from left to right, gives the order of the visits by first occurrences. Each visited node followed
  by its arguments gives the order of creation, again by first occurrences. The arguments of the
  operations, in the order of the visits, give the links.

  * `visitOrder`, `operations`, `planOrder` -- the three orders, read off the unfolded tree;
  * `unmapped?` -- the kind of a node for which the catalogue has no type;
  * `creationSteps` -- the steps that make a node;
  * `Plan.Describes`, `Answers` -- the plan of an expression, and the answers there are;
  * `compile_answers` -- compiling gives them, and so does the machine with a stack.
-/
import Mathlib.Data.Set.Card
import FormulaGraph.Proofs.Emission.Copy
import FormulaGraph.Proofs.Plan.Worklist
import FormulaGraph.Proofs.Table.Order

namespace FormulaGraph

/-- The steps that make the node of an expression: a port for a symbol, and for the rest a node of
    the type of its kind, with the value of a literal if the type is that of constants. -/
def Node.creationSteps (c : Catalogue) (id : Nat) : Node → List BuildStep
  | symbol name => [.createInputPort name true]
  | operation op _ => (c.resolve? op).toList.map (BuildStep.createNode id)
  | literal value => (c.resolve? value.kind).toList.flatMap fun type =>
      .createNode id type ::
        if type.isConstant then [.setLiteralValue id value.toFloat] else []

namespace Table

/-! ## 1. The orders -/

/-- The ids below a root in the order in which they first occur in its tree. -/
def visitOrder (t : Table) (root : Nat) : List Nat := (t.unfolding root).eraseDups

/-- Whether a node is an operation. -/
def isOperation (t : Table) (id : Nat) : Bool :=
  match t.node? id with
  | some (.operation _ _) => true
  | _ => false

/-- The operations below a root, in the order of the visits. -/
def operations (t : Table) (root : Nat) : List Nat := (t.visitOrder root).filter t.isOperation

/-- The ids below a root in the order of creation: each visited node and then its arguments. -/
def planOrder (t : Table) (root : Nat) : List Nat :=
  ((t.visitOrder root).flatMap fun id => id :: t.args id).eraseDups

/-- The kind of a node that is no symbol, if the catalogue has no type for it. -/
def unmapped? (t : Table) (c : Catalogue) (id : Nat) : Option Operator :=
  (t.node? id).bind fun node => node.kind?.filter fun kind => (c.resolve? kind).isNone

/-- The number of expressions below a root. -/
noncomputable def sizeBelow (t : Table) (root : Nat) : Nat := {id | t.Below root id}.ncard

end Table

/-! ## 2. The answers -/

/-- A plan names the expressions below a root once each, in the order of creation, and the flows of
    data along the uses of arguments. Its steps make the compound, its output, the nodes and the
    wires. A symbol alone is wired from its port to the output. -/
structure Plan.Describes (p : Plan) (t : Table) (root : Nat) (c : Catalogue) (o : CompoundOptions) :
    Prop where
  compound : p.compoundName = o.name ∧ p.parent = o.parent ∧ p.outputPort = "output" ∧ p.root = root
  nodes : p.nodes.map (·.expr) = t.planOrder root
  once : (p.nodes.map (·.expr)).Nodup
  all : ∀ id, id ∈ p.nodes.map (·.expr) ↔ t.Below root id
  links : p.links =
    match t.symbolName? root with
    | some _ => []
    | none => .output root :: (t.operations root).flatMap fun id =>
        (t.args id).map fun arg =>
          match t.symbolName? arg with
          | some name => .input name id
          | none => .node arg id
  steps : p.steps = [.createCompound o.parent o.name, .createOutputPort "output"] ++
    (t.planOrder root).flatMap (fun id => (t.node? id).elim [] (Node.creationSteps c id)) ++
    match t.symbolName? root with
    | some name => [.connect .inputToOutput (.compoundInput name) (.compoundOutput "output")]
    | none => p.links.map fun
        | .output source => .connect .nodeToOutput (.node source) (.compoundOutput "output")
        | .input name target => .connect .symbolToInput (.compoundInput name) (.node target)
        | .node source target => .connect .nodeToNode (.node source) (.node target)

namespace Table

/-- The answers to compiling an expression. Too many expressions are refused first, then a kind
    without a type, the first in the order of creation; otherwise there is a plan. -/
structure Answers (t : Table) (root : Nat) (c : Catalogue) (o : CompoundOptions)
    (answer : Except Failure Plan) : Prop where
  tooLarge : ∀ count limit, answer = .error (.tooLarge count limit) ↔
    o.maxNodes < t.sizeBelow root ∧ count = t.sizeBelow root ∧ limit = o.maxNodes
  refused : t.sizeBelow root ≤ o.maxNodes →
    ((∃ kind, answer = .error (.unmapped kind)) ↔
      ∃ id kind, t.Below root id ∧ t.unmapped? c id = some kind)
  first : t.sizeBelow root ≤ o.maxNodes → ∀ kind, answer = .error (.unmapped kind) ↔
    ∃ before id after, t.planOrder root = before ++ id :: after ∧
      (∀ earlier ∈ before, t.unmapped? c earlier = none) ∧ t.unmapped? c id = some kind
  planned : t.sizeBelow root ≤ o.maxNodes → (∀ id, t.Below root id → t.unmapped? c id = none) →
    ∃ p, answer = .ok p ∧ p.Describes t root c o

variable {t : Table} {root : Nat} {c : Catalogue} {o : CompoundOptions}

/-! ## 3. The orders of the walk -/

theorem creationOrder_eq (ht : t.Ordered) (root : Nat) :
    t.creationOrder root = t.planOrder root := by
  rw [creationOrder, preorder_eq_eraseDups ht]
  rfl

theorem mem_planOrder_iff (ht : t.Ordered) {id : Nat} :
    id ∈ t.planOrder root ↔ t.Below root id := by
  rw [← creationOrder_eq ht, mem_creationOrder_iff ht]

theorem sizeBelow_eq (ht : t.Ordered) (root : Nat) : t.sizeBelow root = t.reachableCount root := by
  have hset : {id | t.Below root id} = ↑(t.preorder root).toFinset := by
    ext id
    simp [mem_preorder_iff ht]
  rw [sizeBelow, hset, Set.ncard_coe_finset, List.toFinset_card_of_nodup (nodup_preorder ht)]
  rfl

theorem args_of_isOperation {id : Nat} (h : t.isOperation id = false) : t.args id = [] := by
  unfold isOperation at h
  rw [args]
  cases hn : t.node? id with
  | none => rfl
  | some node =>
    cases node with
    | symbol name => rfl
    | literal value => rfl
    | operation op args =>
      rw [hn] at h
      cases h

/-- Only operations have uses to link. -/
theorem uses_eq (ht : t.Ordered) (root : Nat) :
    t.uses root = (t.operations root).flatMap fun id => (t.args id).map (·, id) := by
  rw [uses, preorder_eq_eraseDups ht, operations, visitOrder]
  induction (t.unfolding root).eraseDups with
  | nil => rfl
  | cons id ids ih =>
    rw [List.flatMap_cons, ih]
    cases h : t.isOperation id with
    | true => rw [List.filter_cons_of_pos h, List.flatMap_cons]
    | false =>
      rw [List.filter_cons_of_neg (by simp [h]), args_of_isOperation h]
      rfl

/-! ## 4. Planning along the order -/

theorem planNode_of_kind? {id : Nat} {node : Node} {kind : Operator} (h : node.kind? = some kind) :
    planNode c id node = planTyped c id kind node.value? := by
  cases node with
  | symbol name => cases h
  | literal value =>
    cases h
    rfl
  | operation op args =>
    cases h
    rfl

theorem planNode_of_unmapped {id : Nat} {node : Node} {kind : Operator}
    (hn : t.node? id = some node) (h : t.unmapped? c id = some kind) :
    planNode c id node = .error (.unmapped kind) := by
  rw [unmapped?, hn, Option.bind_some, Option.filter_eq_some_iff, Option.isNone_iff_eq_none] at h
  rw [planNode_of_kind? h.1, planTyped, h.2]

theorem planNode_of_mapped {id : Nat} {node : Node} (hn : t.node? id = some node)
    (h : t.unmapped? c id = none) : ∃ n, planNode c id node = .ok n := by
  rw [unmapped?, hn, Option.bind_some, Option.filter_eq_none_iff] at h
  cases hk : node.kind? with
  | none =>
    cases node with
    | symbol name => exact ⟨_, rfl⟩
    | literal value => cases hk
    | operation op args => cases hk
  | some kind =>
    obtain ⟨type, ht⟩ := Option.ne_none_iff_exists'.mp (by simpa using h kind hk)
    rw [planNode_of_kind? hk, planTyped, ht]
    exact ⟨_, rfl⟩

theorem planAll_of_mapped {ids : List Nat} (h : ∀ id ∈ ids, t.unmapped? c id = none) :
    ∃ nodes, Worklist.planAll t c ids = .ok nodes := by
  induction ids with
  | nil => exact ⟨[], rfl⟩
  | cons first ids ih =>
    obtain ⟨hfirst, h⟩ := List.forall_mem_cons.mp h
    obtain ⟨nodes, hnodes⟩ := ih h
    rw [← List.singleton_append, Worklist.planAll_append, hnodes]
    cases hn : t.node? first with
    | none => exact ⟨nodes, by rw [Worklist.planAll_singleton_of_none hn]; rfl⟩
    | some node =>
      obtain ⟨n, hplan⟩ := planNode_of_mapped hn hfirst
      exact ⟨n :: nodes, by rw [Worklist.planAll_singleton hn, hplan]; rfl⟩

/-- **The first kind without a type is the failure.** -/
theorem planAll_of_unmapped {before after : List Nat} {id : Nat} {kind : Operator}
    (hb : ∀ earlier ∈ before, t.unmapped? c earlier = none) (h : t.unmapped? c id = some kind) :
    Worklist.planAll t c (before ++ id :: after) = .error (.unmapped kind) := by
  obtain ⟨nodes, hnodes⟩ := planAll_of_mapped hb
  cases hn : t.node? id with
  | none =>
    rw [unmapped?, hn] at h
    cases h
  | some node =>
    rw [← List.singleton_append, Worklist.planAll_append, hnodes, Worklist.planAll_append,
      Worklist.planAll_singleton hn, planNode_of_unmapped hn h]
    rfl

theorem steps_of_planNode {id : Nat} {node : Node} {n : PlannedNode}
    (h : planNode c id node = .ok n) : n.steps = node.creationSteps c id := by
  rcases planNode_ok_cases h with ⟨name, rfl, rfl⟩ | ⟨kind, type, hk, hr, rfl, hp, ht, hv⟩
  · rfl
  · rw [PlannedNode.steps_of_type hp ht, hv]
    cases node with
    | symbol name => cases hk
    | literal value =>
      cases hk
      rw [Node.creationSteps, hr, Node.storedValue, Node.value?]
      cases hc : type.isConstant <;> simp [hc]
    | operation op args =>
      cases hk
      have hnone : (Node.operation kind args).storedValue type = none := ite_self none
      rw [Node.creationSteps, hr, hnone]
      rfl

/-! ## 5. The plan -/

theorem map_fst_creations_of_lt (ht : t.Ordered) (hr : root < t.size) :
    (t.creations root).map Prod.fst = t.planOrder root := by
  rw [map_fst_creations, creationOrder_eq ht, List.filter_eq_self]
  intro id hid
  exact isSome_node?_iff.mpr (((mem_planOrder_iff ht).mp hid).lt_size ht hr)

theorem flatMap_steps {es : List (Nat × Node)} {nodes : List PlannedNode}
    (h : List.Forall₂ (fun e n => planNode c e.1 e.2 = .ok n) es nodes) :
    nodes.flatMap PlannedNode.steps = es.flatMap fun e => e.2.creationSteps c e.1 := by
  induction h with
  | nil => rfl
  | cons he _ ih => rw [List.flatMap_cons, List.flatMap_cons, ih, steps_of_planNode he]

theorem flatMap_creations (ht : t.Ordered) :
    ((t.creations root).flatMap fun e => e.2.creationSteps c e.1) =
      (t.planOrder root).flatMap fun id => (t.node? id).elim [] (Node.creationSteps c id) := by
  rw [creations, creationOrder_eq ht]
  induction t.planOrder root with
  | nil => rfl
  | cons id ids ih =>
    rw [List.flatMap_cons, ← ih]
    cases hn : t.node? id <;> simp [hn]

theorem linksOf_eq (ht : t.Ordered) (hs : t.symbolName? root = none) :
    t.linksOf root = .output root :: (t.operations root).flatMap fun id =>
      (t.args id).map fun arg => t.linkOf arg id := by
  rw [linksOf, hs, uses_eq ht, List.map_flatMap]
  simp only [List.map_map]
  rfl

/-- A plan that was compiled describes its expression. -/
theorem describes_of_compile {p : Plan} (ht : t.Ordered) (hr : root < t.size)
    (h : t.compile root c o = .ok p) : p.Describes t root c o := by
  obtain ⟨nodes, hplan, rfl⟩ := compile_ok h
  have hnodes : nodes.map (·.expr) = t.planOrder root :=
    (Worklist.map_expr_planned hplan).trans (map_fst_creations_of_lt ht hr)
  refine ⟨⟨rfl, rfl, rfl, rfl⟩, hnodes, ?_, fun id => ?_, ?_, ?_⟩
  · rw [hnodes]
    exact nodup_eraseDups _
  · rw [hnodes, mem_planOrder_iff ht]
  · cases hs : t.symbolName? root with
    | some name => simp only [linksOf, hs]
    | none => exact linksOf_eq ht hs
  · rw [List.append_assoc, ← flatMap_creations ht, ← flatMap_steps hplan]
    cases hs : t.symbolName? root with
    | some name =>
      simp only [wireSteps, hs]
      rfl
    | none =>
      simp only [wireSteps, hs]
      rfl

/-! ## 6. Compiling -/

theorem compile_of_lt (h : o.maxNodes < t.reachableCount root) :
    t.compile root c o = .error (.tooLarge (t.reachableCount root) o.maxNodes) := by
  rw [compile, if_pos h]
  rfl

/-- The plan is made from what is planned along the order of creation. -/
theorem compile_of_le (h : t.reachableCount root ≤ o.maxNodes) :
    t.compile root c o = do
      let nodes ← Worklist.planAll t c (t.creationOrder root)
      return {
        compoundName := o.name
        parent := o.parent
        outputPort := outputPortName
        root := root
        steps := .createCompound o.parent o.name :: .createOutputPort outputPortName ::
          (nodes.flatMap PlannedNode.steps ++ t.wireSteps root)
        nodes := nodes
        links := t.linksOf root } := by
  rw [compile, if_neg (Nat.not_lt.mpr h)]
  rfl

theorem compile_of_unmapped (ht : t.Ordered) (hle : t.reachableCount root ≤ o.maxNodes)
    {before after : List Nat} {id : Nat} {kind : Operator}
    (horder : t.planOrder root = before ++ id :: after)
    (hb : ∀ earlier ∈ before, t.unmapped? c earlier = none) (h : t.unmapped? c id = some kind) :
    t.compile root c o = .error (.unmapped kind) := by
  rw [compile_of_le hle, creationOrder_eq ht, horder, planAll_of_unmapped hb h]
  rfl

theorem compile_of_mapped (ht : t.Ordered) (hle : t.reachableCount root ≤ o.maxNodes)
    (h : ∀ id ∈ t.planOrder root, t.unmapped? c id = none) : ∃ p, t.compile root c o = .ok p := by
  obtain ⟨nodes, hnodes⟩ := planAll_of_mapped h
  rw [compile_of_le hle, creationOrder_eq ht, hnodes]
  exact ⟨_, rfl⟩

/-- Either every kind has a type, or there is a first one in the order of creation that has none. -/
theorem mapped_or_unmapped (t : Table) (root : Nat) (c : Catalogue) :
    (∀ id ∈ t.planOrder root, t.unmapped? c id = none) ∨
      ∃ kind before id after, t.planOrder root = before ++ id :: after ∧
        (∀ earlier ∈ before, t.unmapped? c earlier = none) ∧ t.unmapped? c id = some kind := by
  cases h : (t.planOrder root).findSome? (t.unmapped? c) with
  | none => exact .inl (List.findSome?_eq_none_iff.mp h)
  | some kind =>
    obtain ⟨before, id, after, horder, hid, hb⟩ := List.findSome?_eq_some_iff.mp h
    exact .inr ⟨kind, before, id, after, horder, hb, hid⟩

/-- **The failure names the first kind without a type.** -/
theorem compile_eq_unmapped_iff (ht : t.Ordered) (hle : t.reachableCount root ≤ o.maxNodes)
    {kind : Operator} : t.compile root c o = .error (.unmapped kind) ↔
      ∃ before id after, t.planOrder root = before ++ id :: after ∧
        (∀ earlier ∈ before, t.unmapped? c earlier = none) ∧ t.unmapped? c id = some kind := by
  constructor
  · intro hfail
    rcases mapped_or_unmapped t root c with hall | ⟨other, before, id, after, horder, hb, hid⟩
    · obtain ⟨p, hp⟩ := compile_of_mapped (o := o) ht hle hall
      cases hp.symm.trans hfail
    · cases (compile_of_unmapped ht hle horder hb hid).symm.trans hfail
      exact ⟨before, id, after, horder, hb, hid⟩
  · rintro ⟨before, id, after, horder, hb, hid⟩
    exact compile_of_unmapped ht hle horder hb hid

/-- **Only too many expressions are too many.** -/
theorem compile_eq_tooLarge_iff (ht : t.Ordered) {count limit : Nat} :
    t.compile root c o = .error (.tooLarge count limit) ↔
      o.maxNodes < t.reachableCount root ∧ count = t.reachableCount root ∧ limit = o.maxNodes := by
  by_cases h : o.maxNodes < t.reachableCount root
  · rw [compile_of_lt h]
    constructor
    · intro he
      cases he
      exact ⟨h, rfl, rfl⟩
    · rintro ⟨_, rfl, rfl⟩
      rfl
  · refine ⟨fun hfail => ?_, fun hlt => absurd hlt.1 h⟩
    have hle := Nat.not_lt.mp h
    rcases mapped_or_unmapped t root c with hall | ⟨kind, before, id, after, horder, hb, hid⟩
    · obtain ⟨p, hp⟩ := compile_of_mapped (o := o) ht hle hall
      cases hp.symm.trans hfail
    · cases (compile_of_unmapped ht hle horder hb hid).symm.trans hfail

/-- **What compiling answers.** The table was built by pushing and interning nodes. The machine with
    a stack ends and gives the same answer, and adds no warning to a report. -/
theorem compile_answers (ht : t.Built) (hr : root < t.size) (c : Catalogue) (o : CompoundOptions) :
    t.Answers root c o (t.compile root c o) ∧
      ∀ turns r, (t.uses root).length + 2 ≤ turns →
        Worklist.compile t root c o turns r = (fun p => some (p, r)) <$> t.compile root c o := by
  have hord := ht.ordered
  have hsize := sizeBelow_eq hord root
  refine ⟨⟨?_, ?_, ?_, ?_⟩, fun turns r h => Worklist.compile_eq hord hr h r⟩
  · intro count limit
    rw [hsize]
    exact compile_eq_tooLarge_iff hord
  · intro hle
    rw [hsize] at hle
    constructor
    · rintro ⟨kind, hfail⟩
      obtain ⟨before, id, after, horder, _, hid⟩ := (compile_eq_unmapped_iff hord hle).mp hfail
      exact ⟨id, kind, (mem_planOrder_iff hord).mp (by simp [horder]), hid⟩
    · rintro ⟨id, kind, hb, hid⟩
      rcases mapped_or_unmapped t root c with hall | ⟨first, before, other, after, hsplit⟩
      · cases (hall id ((mem_planOrder_iff hord).mpr hb)).symm.trans hid
      · exact ⟨first, (compile_eq_unmapped_iff hord hle).mpr ⟨before, other, after, hsplit⟩⟩
  · intro hle kind
    rw [hsize] at hle
    exact compile_eq_unmapped_iff hord hle
  · intro hle hall
    rw [hsize] at hle
    obtain ⟨p, hp⟩ := compile_of_mapped (o := o) hord hle fun id hid =>
      hall id ((mem_planOrder_iff hord).mp hid)
    exact ⟨p, hp, describes_of_compile hord hr hp⟩

/-- The sum of `|sin x|` and `cos x`, where `sin` and `cos` have no types. The walk meets `sin`
    first; `cos` is planned before it, as an argument of the sum, and is the failure. -/
theorem compile_answers_sum :
    let x := (Table.empty.push (.symbol "x")).2
    let size := ((x.push (.operation .sin [0])).2.push (.operation .abs [1])).2
    let t := ((size.push (.operation .cos [0])).2.push (.operation .add [2, 3])).2
    let c : Catalogue := ⟨[(.add, ⟨"Core::Math,add"⟩), (.abs, ⟨"Core::Math,absolute_value"⟩)]⟩
    t.visitOrder 4 = [4, 2, 1, 0, 3] ∧ t.planOrder 4 = [4, 2, 3, 1, 0] ∧
      t.Answers 4 c {} (.error (.unmapped .cos)) ∧
      Worklist.compile t 4 c {} 7 .empty = .error (.unmapped .cos) := by
  intro x size t c
  have hx : x.Built := .push .empty (show Table.empty.push? (.symbol "x") = some _ from rfl)
  have hsin := hx.push (show x.push? (.operation .sin [0]) = some _ from rfl)
  have hsize : size.Built := hsin.push (show Table.push? _ (.operation .abs [1]) = some _ from rfl)
  have hcos := hsize.push (show size.push? (.operation .cos [0]) = some _ from rfl)
  have ht : t.Built := hcos.push (show Table.push? _ (.operation .add [2, 3]) = some _ from rfl)
  have hfail : t.compile 4 c {} = .error (.unmapped .cos) := by decide +kernel
  obtain ⟨hanswers, hmachine⟩ := compile_answers ht (show 4 < t.size by decide) c {}
  refine ⟨by decide, by decide, hfail ▸ hanswers, ?_⟩
  rw [hmachine 7 .empty (by decide), hfail]
  rfl

end Table

end FormulaGraph
