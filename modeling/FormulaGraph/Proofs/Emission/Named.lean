/-
  File:      FormulaGraph/Proofs/Emission/Named.lean
  Subject:   The names in the store of a formula.

  Compounds and nodes are named after what is asked for, with a number behind it if need be. So what
  holds of the names that are asked for holds of all names in the store, if a number does not spoil
  it. What is asked for while a formula is built is the name of the compound and the short names of
  the catalogue.

  * `Store.Named`, `Store.Reachable.named` -- all names of a reachable store are of one kind;
  * `Table.names_of_compile` -- the names that a compiled plan asks for;
  * `reachable_of_buildText` -- the store of a formula is reached with these names.
-/
import FormulaGraph.Build
import FormulaGraph.Proofs.Emission.Acyclic
import FormulaGraph.Proofs.Store.SingleDriver

namespace FormulaGraph

namespace Store

variable {ok : String → Prop} {s s' : Store}

/-! ## 1. Reachable stores -/

/-- The names of all compounds and nodes are of a kind. -/
def Named (ok : String → Prop) (s : Store) : Prop := ∀ path r, s.record? path = some r → ok r.name

/-- A free name is the wanted one, or has a number behind it. -/
theorem ok_nameFor (hnumber : ∀ base k, ok base → ok (numberedName base k)) {wanted : String}
    (h : ok wanted) (s : Store) (container : String) : ok (s.nameFor container wanted) := by
  unfold nameFor
  rcases uniqueName_cases wanted _ (s.namesIn container) with he | ⟨k, he⟩
  · rw [he]
    exact h
  · rw [he]
    exact hnumber wanted k h

theorem Named.insert (h : s.Named ok) (hnumber : ∀ base k, ok base → ok (numberedName base k))
    {container : String} {r : Record} (hr : ok r.name) : (s.insert container r).2.Named ok := by
  intro path r' hr'
  rcases record?_insert_cases hr' with rfl | hold
  · exact ok_nameFor hnumber hr s container
  · exact h path r' hold

theorem Named.updateRecord (h : s.Named ok) (path : String) {f : Record → Record}
    (hf : ∀ r, (f r).name = r.name) : (s.updateRecord path f).Named ok := by
  intro other r' hr'
  rcases record?_updateRecord_cases hr' with ⟨r, hr, -, rfl⟩ | hold
  · rw [hf r]
    exact h other r hr
  · exact h other r' hold

/-- **Every request keeps the names of a kind.** -/
theorem Outcome.named {q : Request} (ho : Outcome s q s') (h : s.Named ok)
    (hnumber : ∀ base k, ok base → ok (numberedName base k)) (hq : q.Names ok) : s'.Named ok := by
  cases ho with
  | unchanged records _ _ _ _ =>
    intro path r hr
    unfold record? at hr
    rw [records] at hr
    exact h path r hr
  | @createCompound parent name container =>
    exact Named.insert (r := compoundRecord parent name) (s := s.counted _) h hnumber hq
  | createInputPort found isCompound => exact Named.updateRecord h _ fun _ => rfl
  | createOutputPort found isCompound => exact Named.updateRecord h _ fun _ => rfl
  | @createNode compound type container =>
    exact Named.insert (r := nodeRecord compound type) (s := s.counted _) h hnumber hq
  | setLiteralValue found constant => exact Named.updateRecord h _ fun _ => rfl
  | connect leaves arrives =>
    cases arrives with
    | free within found first => exact h
    | added within found full => exact Named.updateRecord h _ fun _ => rfl
    | output found isCompound listed idle => exact h
  | @deleteNode node found =>
    intro path r hr
    rw [record?_without] at hr
    split at hr
    · cases hr
    · exact h path r hr

theorem Reachable.named (h : Reachable ok s)
    (hnumber : ∀ base k, ok base → ok (numberedName base k)) :
    s.Named ok := by
  induction h with
  | empty =>
    intro path r hr
    cases hr
  | step _ q names ih => exact (q.outcome _).named ih hnumber names

end Store

/-! ## 2. Formulas -/

section

variable {ok : String → Prop} {cs : List Char} {c : Catalogue} {o : CompoundOptions} {k : Compound}
  {s : Store}

/-- A node is named after the type that the catalogue gives to its kind. -/
theorem names_of_planNode {id : Nat} {node : Node} {n : PlannedNode}
    (hc : ∀ entry ∈ c.entries, ok entry.2.shortName) (h : Table.planNode c id node = .ok n) :
    ∀ step ∈ n.steps, step.Names ok := by
  rcases planNode_ok_cases h with ⟨name, -, rfl⟩ | ⟨kind, type, -, hresolve, -, hport, htype, -⟩
  · exact List.forall_mem_singleton.mpr trivial
  · rw [PlannedNode.steps_of_type hport htype]
    refine List.forall_mem_cons.mpr ⟨hc (kind, type) (Assoc.mem_of_lookup hresolve), ?_⟩
    intro step hstep
    obtain ⟨value, -, rfl⟩ := Option.map_eq_some_iff.mp (Option.mem_toList.mp hstep)
    trivial

/-- The names that a compiled plan asks for are that of the compound and those of the catalogue. -/
theorem Table.names_of_compile {t : Table} {root : Nat} {p : Plan} (ht : t.Ordered)
    (hc : ∀ entry ∈ c.entries, ok entry.2.shortName) (hn : ok o.name)
    (h : t.compile root c o = .ok p) : p.Names ok := by
  obtain ⟨nodes, hplan, rfl⟩ := compile_ok h
  refine List.forall_mem_cons.mpr ⟨hn, List.forall_mem_cons.mpr ⟨trivial, fun step hm => ?_⟩⟩
  rcases List.mem_append.mp hm with hm | hm
  · obtain ⟨n, hnode, hstep⟩ := List.mem_flatMap.mp hm
    obtain ⟨d, -, hd⟩ := Furnished.exists_of_forall₂ hplan n hnode
    exact names_of_planNode hc hd step hstep
  · obtain ⟨kind, source, target, rfl⟩ := exists_connect ht hm
    trivial

/-- **The store of a formula is reached with the names of the compound and of the catalogue.** -/
theorem reachable_of_buildText (hc : ∀ entry ∈ c.entries, ok entry.2.shortName) (hn : ok o.name)
    (h : buildText cs c o Store.empty = .ok k s) : s.Reachable ok := by
  obtain ⟨root, t, p, -, ht, hcompile, h⟩ := buildText_ok h
  obtain ⟨e, hrun, -⟩ := Plan.run_of_emit h
  refine Emission.run_induct (P := fun _ s => s.Reachable ok) (Q := fun step => step.Names ok)
    (fun e s step e' s' hstep hs ht => ?_) (Table.names_of_compile ht hc hn hcompile) .empty hrun
  obtain ⟨q, rfl, hq⟩ := ht.request
  exact .step hs q (hq ok hstep)

end

end FormulaGraph
