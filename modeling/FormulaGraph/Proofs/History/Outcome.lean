/-
  File:      FormulaGraph/Proofs/History/Outcome.lean
  Subject:   What was read before makes no difference.

  A table that has been used holds other nodes, and gives a formula other ids. Reading computes the
  same tree there; nodes are interned in both tables, so equal trees are one expression under two
  sets of ids; and neither the compiler nor an emission depends on the ids.

  * `SameBuild`, `SamePlan`, `SameOutcome` -- agreement of emissions, of plans and of readings;
  * `Complete.sameOutcome` -- equal trees of interned nodes are the same to all that follows;
  * `read_sameOutcome` -- reading into a used table and into an empty one.
-/
import FormulaGraph.Proofs.History.Emission
import FormulaGraph.Proofs.History.Lowering

namespace FormulaGraph

/-- Two emissions end in the same store, with the same failure or with compounds that differ by the
    ids of their nodes only. -/
def SameBuild (ρ : Nat → Nat) :
    EStateM.Result Failure Store Compound → EStateM.Result Failure Store Compound → Prop
  | .ok c s, .ok c' s' => s = s' ∧ c' = c.rename ρ
  | .error f s, .error f' s' => s = s' ∧ f = f'
  | _, _ => False

/-- Two compilations fail in the same way, or give plans that differ by their ids only and build the
    same in every store. -/
def SamePlan : Except Failure Plan → Except Failure Plan → Prop
  | .ok p, .ok q => ∃ ρ : Nat → Nat, Function.Injective ρ ∧ q = p.rename ρ ∧
      ∀ s, SameBuild ρ (p.emit s) (q.emit s)
  | .error f, .error g => f = g
  | _, _ => False

/-- Two readings fail in the same way, or give the same expression, with all that follows. -/
def SameOutcome :
    EStateM.Result (Stop FormulaError) Table Nat →
      EStateM.Result (Stop FormulaError) Table Nat → Prop
  | .ok root t, .ok root' u =>
      t.tree root = u.tree root' ∧ (t.tree root).text = (u.tree root').text ∧
        t.freeSymbols root = u.freeSymbols root' ∧
        t.reachableCount root = u.reachableCount root' ∧
        ∀ c o, SamePlan (t.compile root c o) (u.compile root' c o)
  | .error e _, .error e' _ => e = e'
  | _, _ => False

theorem sameBuild_rename {ρ : Nat → Nat} (hρ : Function.Injective ρ) {p : Plan}
    (h : BuildStep.Scoped [] p.steps) (s : Store) :
    SameBuild ρ (p.emit s) ((p.rename ρ).emit s) := by
  rw [Plan.emit_rename hρ h]
  show SameBuild ρ (p.emit s) (EStateM.map (Compound.rename ρ) p.emit s)
  unfold EStateM.map
  cases p.emit s with
  | ok c s' => exact ⟨rfl, rfl⟩
  | error f s' => exact ⟨rfl, rfl⟩

namespace Table

variable {t u : Table} {root root' : Nat}

/-- A renamed expression has the same plan. -/
theorem Renames.samePlan {ρ : Nat → Nat} (h : Renames ρ t root u) (ht : t.Ordered) (hu : u.Ordered)
    (hr : root < t.size) (c : Catalogue) (o : CompoundOptions) :
    SamePlan (t.compile root c o) (u.compile (ρ root) c o) := by
  rw [h.compile ht hu]
  cases hp : t.compile root c o with
  | ok p => exact ⟨ρ, h.injective, rfl, sameBuild_rename h.injective (scoped_compile ht hr hp)⟩
  | error f => rfl

/-- **Equal trees in tables of interned nodes are the same to all that follows.** -/
theorem Complete.sameOutcome (hct : t.Complete) (ht : t.Ordered) (hcu : u.Complete) (hu : u.Ordered)
    (hr : root < t.size) (hr' : root' < u.size) (htree : t.tree root = u.tree root') :
    SameOutcome (.ok root t) (.ok root' u) := by
  obtain ⟨ρ, h, rfl⟩ := exists_renames ht hct hu hcu hr hr' htree
  exact ⟨htree, congrArg Tree.text htree, (h.freeSymbols ht hu).symm, (h.reachableCount ht hu).symm,
    h.samePlan ht hu hr⟩

/-- Readings of one text in two tables of interned nodes. -/
theorem sameOutcome_read (ht : t.Normal) (hct : t.Complete) (hu : u.Normal) (hcu : u.Complete)
    (cs : List Char) : SameOutcome (read cs t) (read cs u) := by
  have hcomputed := read_computes ht cs
  have hcomputed' := read_computes hu cs
  have hleaves := ht.leaves_read cs
  have hleaves' := hu.leaves_read cs
  have hcomplete := (grows_read cs t).complete hct
  have hcomplete' := (grows_read cs u).complete hcu
  -- What is computed without a table says which of the two both readings are.
  cases hr : read cs t <;> cases hr' : read cs u <;> cases he : expressionOf cs <;>
    simp only [hr, hr', he, Lowering.Computes] at hcomputed hcomputed'
  · rw [hr] at hleaves hcomplete
    rw [hr'] at hleaves' hcomplete'
    exact hcomplete.sameOutcome hleaves.1.ordered hcomplete' hleaves'.1.ordered hleaves.2
      hleaves'.2 (hcomputed.trans hcomputed'.symm)
  · exact hcomputed.trans hcomputed'.symm

/-- **What was read before makes no difference.** A text that is read into a table in which any
    texts have been read, refused ones among them, comes out as it does in an empty table. -/
theorem read_sameOutcome (texts : List (List Char)) (cs : List Char) :
    SameOutcome (read cs (readAll texts)) (read cs empty) :=
  sameOutcome_read (normal_empty.foldl_read texts) (complete_readAll texts) normal_empty
    complete_empty cs

end Table

end FormulaGraph
