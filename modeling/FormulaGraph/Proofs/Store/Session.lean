/-
  File:      FormulaGraph/Proofs/Store/Session.lean
  Subject:   What a store says after any session of requests.

  A session is a list of requests, made one after the other from the empty store, whether they
  succeed or not. `Consistent` says in terms of what a store shows that its five parts agree; it is
  what `Sound` comes to, without the strengthening that an induction over the requests needs.

  * `session` -- the store after a list of requests;
  * `session_consistent` -- segments for names make every session end in a consistent store.
-/
import Mathlib.Data.List.Induction
import FormulaGraph.Proofs.Store.Reachable

namespace FormulaGraph

namespace Store

variable {s : Store} {qs : List Request}

/-! ## 1. Sessions -/

/-- The store that a list of requests leads to. -/
def session (qs : List Request) : Store := qs.foldl (fun s q => q.run s) empty

@[simp] theorem session_concat (qs : List Request) (q : Request) :
    session (qs ++ [q]) = q.run (session qs) := by
  simp [session]

/-- What a session leads to is reachable. -/
theorem reachable_session {ok : String → Prop} (h : ∀ q ∈ qs, q.Names ok) :
    Reachable ok (session qs) := by
  induction qs using List.reverseRecOn with
  | nil => exact .empty
  | append_singleton qs q ih =>
    rw [session_concat]
    have hq : q.Names ok := h q (List.mem_append_right qs List.mem_cons_self)
    exact .step (ih fun q' hq' => h q' (List.mem_append_left [q] hq')) q hq

instance Request.decidableNames (ok : String → Prop) [DecidablePred ok] :
    (q : Request) → Decidable (q.Names ok)
  | .createCompound _ name => inferInstanceAs (Decidable (ok name))
  | .createNode _ type => inferInstanceAs (Decidable (ok type.shortName))
  | .createInputPort .. => .isTrue trivial
  | .createOutputPort .. => .isTrue trivial
  | .setLiteralValue .. => .isTrue trivial
  | .connect .. => .isTrue trivial
  | .deleteNode .. => .isTrue trivial
  | .failOn .. => .isTrue trivial
  | .look .. => .isTrue trivial

/-! ## 2. Consistent stores -/

/-- **The parts of a store say the same.** -/
structure Consistent (s : Store) : Prop where
  /-- The order of creation lists the keys of the records, each once. -/
  keys : s.order = s.records.map Prod.fst
  nodup : s.order.Nodup
  /-- A record's path is made of its container and its name. -/
  path_eq : ∀ path r, s.record? path = some r → path = childPath r.container r.name
  /-- A record stands in the root or in a compound that is there. -/
  contained : ∀ path r, s.record? path = some r →
    r.container = rootPath ∨ ∃ c, s.record? r.container = some c ∧ c.isCompound = true
  /-- The names in use in a container are those of the records that stand in it. -/
  names : ∀ container name, name ∈ s.namesIn container ↔
    ∃ path r, s.record? path = some r ∧ r.container = container ∧ r.name = name
  /-- Only a constant has a value. -/
  valued : ∀ path r, s.record? path = some r → r.value.isSome = true →
    r.nodeType = some NodeType.constant
  /-- A wire runs from a port of a record to a port of a record. -/
  sources : ∀ w ∈ s.wires, s.HasSource w.source
  targets : ∀ w ∈ s.wires, s.HasTarget w.target
  /-- A port is marked as driven by a wire to it. -/
  driven : ∀ port, s.isDriven port = true → ∃ w ∈ s.wires, w.target = port

theorem Sound.consistent (h : Sound s) : Consistent s where
  keys := h.order_eq
  nodup := h.nodup
  path_eq path r hr := (h.placed path r hr).1
  contained path r hr := hasContainer_iff.mp (h.placed path r hr).2.2
  names container name := by
    rw [h.taken]
    constructor
    · intro hn
      obtain ⟨r, hr, hc, he⟩ := hn
      exact ⟨childPath container name, r, hr, hc, he⟩
    · intro hn
      obtain ⟨path, r, hr, hc, he⟩ := hn
      have hpath : path = childPath container name := by
        rw [(h.placed path r hr).1, hc, he]
      exact ⟨r, hpath ▸ hr, hc, he⟩
  valued := h.valued
  sources := h.sources
  targets := h.targets
  driven port hp := h.driven port (by simpa [isDriven] using hp)

/-- **Every session ends in a consistent store**, if the names it gives to compounds and nodes are
    segments: requests that fail, deletions with what is inside, and names that come free and are
    given again change nothing about it. -/
theorem session_consistent (qs : List Request) (h : ∀ q ∈ qs, q.Names IsSegment) :
    (session qs).Consistent :=
  ((reachable_session h).sound fun _ hn => hn).consistent

/-- A compound is deleted with the nodes in it and made again under its old name; one call is told
    to fail, and one names a compound that is not there. -/
theorem session_consistent_rebuilt :
    let add : NodeType := ⟨"Core::Math,add"⟩
    let qs : List Request :=
      [.createCompound "/" "a", .createNode "/a" add, .createNode "/a" .constant,
        .setLiteralValue "/a/float" 0.5,
        .connect "/a" (.node "/a/float") (.node "/a/add") .nodeToNode,
        .deleteNode "/a", .createNode "/a" add, .createCompound "/" "a", .failOn .createNode 2,
        .createNode "/a" add, .createNode "/a" add, .createOutputPort "/a" "y",
        .connect "/a" (.node "/a/add") (.compoundOutput "/a.y") .nodeToOutput]
    (session qs).order = ["/a", "/a/add"] ∧ (session qs).wires.length = 1 ∧
      (session qs).Consistent := by
  intro add qs
  exact ⟨by decide +kernel, by decide +kernel, session_consistent qs (by decide)⟩

end Store

end FormulaGraph
