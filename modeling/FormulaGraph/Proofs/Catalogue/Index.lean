/-
  File:      FormulaGraph/Proofs/Catalogue/Index.lean
  Subject:   The last pair of an operator wins, and an index over the entries stays valid.

  A catalogue is looked up entry by entry. A table that is to be fast keeps an index beside its
  entries: the place of each operator. Entering a pair then either writes at that place or appends,
  and a wrong place would give an operator the node type of another one without a word. Both forms
  are compared with the pairs that they were made from.

  * `lastFor?` -- the node type of the last pair of an operator;
  * `resolve?_ofList`, `map_fst_ofList` -- what a catalogue of pairs finds and lists;
  * `Ledger` -- entries with an index; `Ledger.Valid` -- each operator stands where the index says;
  * `Ledger.Valid.enter?`, `Ledger.Valid.foldlM_enter?` -- one pair, and all of them;
  * `ofList_lastWins` -- the catalogue of pairs, and the ledger of them.
-/
import FormulaGraph.Catalogue
import FormulaGraph.Proofs.Distinct
import Mathlib.Data.List.Induction
import Mathlib.Data.List.Nodup

namespace FormulaGraph

/-! ## 1. The last pair -/

namespace Assoc

variable {κ α : Type} [DecidableEq κ]

/-- A key that is new comes last. -/
theorem map_fst_put (key : κ) (value : α) (entries : List (κ × α)) :
    (put key value entries).map Prod.fst =
      if key ∈ entries.map Prod.fst then entries.map Prod.fst
      else entries.map Prod.fst ++ [key] := by
  induction entries with
  | nil => rfl
  | cons e rest ih =>
    obtain ⟨k, v⟩ := e
    unfold put
    by_cases hk : k = key
    · simp [hk]
    · simp only [if_neg hk, List.map_cons, ih, List.mem_cons, Ne.symm hk, false_or]
      split <;> rfl

/-- The value at the place of a key is replaced, if no key stands twice. -/
theorem put_eq_modify {key : κ} {value : α} {entries : List (κ × α)} {place : Nat}
    (hn : (entries.map Prod.fst).Nodup) (hplace : (entries.map Prod.fst)[place]? = some key) :
    put key value entries = entries.modify place fun e => (e.1, value) := by
  induction entries generalizing place with
  | nil => cases hplace
  | cons e rest ih =>
    obtain ⟨k, v⟩ := e
    obtain ⟨hk, hn⟩ := List.nodup_cons.mp hn
    cases place with
    | zero =>
      cases hplace
      simp [put]
    | succ place =>
      have hplace : (rest.map Prod.fst)[place]? = some key := hplace
      have hne : k ≠ key := fun heq => hk (heq ▸ List.mem_of_getElem? hplace)
      rw [put, if_neg hne, ih hn hplace]
      rfl

end Assoc

namespace Catalogue

/-- The node type of the last pair of an operator. -/
def lastFor? (pairs : List (Operator × NodeType)) (kind : Operator) : Option NodeType :=
  ((pairs.filter (·.1 = kind)).map Prod.snd).getLast?

theorem lastFor?_append (pairs more : List (Operator × NodeType)) (kind : Operator) :
    lastFor? (pairs ++ more) kind = (lastFor? more kind).or (lastFor? pairs kind) := by
  simp [lastFor?, List.getLast?_append]

theorem lastFor?_concat (pairs : List (Operator × NodeType)) (pair : Operator × NodeType)
    (kind : Operator) :
    lastFor? (pairs ++ [pair]) kind =
      if kind = pair.1 then some pair.2 else lastFor? pairs kind := by
  rw [lastFor?_append]
  by_cases h : kind = pair.1
  · simp [lastFor?, h]
  · simp [lastFor?, h, Ne.symm h]

/-- If no operator stands twice, the last pair is the only one. -/
theorem lastFor?_eq_lookup {entries : List (Operator × NodeType)}
    (hn : (entries.map Prod.fst).Nodup) (kind : Operator) :
    lastFor? entries kind = entries.lookup kind := by
  induction entries with
  | nil => rfl
  | cons entry rest ih =>
    obtain ⟨hnew, hn⟩ := List.nodup_cons.mp hn
    have hcons := lastFor?_append [entry] rest kind
    rw [List.singleton_append] at hcons
    rw [hcons, ih hn, List.lookup_cons]
    by_cases hkind : kind = entry.1
    · have hnone : rest.lookup kind = none := by
        rw [← Option.not_isSome_iff_eq_none, Assoc.isSome_lookup_iff, hkind]
        exact hnew
      rw [hnone]
      simp [lastFor?, hkind]
    · simp [lastFor?, Ne.symm hkind, beq_false_of_ne hkind]

theorem ofList_concat (pairs : List (Operator × NodeType)) (pair : Operator × NodeType) :
    (ofList (pairs ++ [pair])).entries = Assoc.put pair.1 pair.2 (ofList pairs).entries := by
  simp [ofList]

/-- **A catalogue finds the last pair of an operator.** -/
theorem resolve?_ofList (pairs : List (Operator × NodeType)) (kind : Operator) :
    (ofList pairs).resolve? kind = lastFor? pairs kind := by
  induction pairs using List.reverseRecOn with
  | nil => rfl
  | append_singleton pairs pair ih =>
    rw [lastFor?_concat, ← ih]
    unfold resolve?
    rw [ofList_concat, Assoc.lookup_put]

/-- **A catalogue lists the operators in order of first occurrence.** -/
theorem map_fst_ofList (pairs : List (Operator × NodeType)) :
    (ofList pairs).entries.map Prod.fst = (pairs.map Prod.fst).eraseDups := by
  induction pairs using List.reverseRecOn with
  | nil => rfl
  | append_singleton pairs pair ih =>
    rw [ofList_concat, Assoc.map_fst_put, List.map_append, List.map_singleton, eraseDups_concat, ih]
    simp only [List.mem_eraseDups]

theorem nodup_ofList (pairs : List (Operator × NodeType)) :
    ((ofList pairs).entries.map Prod.fst).Nodup := by
  rw [map_fst_ofList]
  exact nodup_eraseDups _

end Catalogue

/-! ## 2. Entries with an index -/

/-- Entries, and the place of each operator among them. -/
structure Ledger where
  entries : List (Operator × NodeType) := []
  index : List (Operator × Nat) := []
  deriving DecidableEq, Repr

theorem getElem?_concat_eq_some {α : Type} {as : List α} {a b : α} {i : Nat} :
    (as ++ [a])[i]? = some b ↔ as[i]? = some b ∨ i = as.length ∧ a = b := by
  grind

namespace Ledger

variable {l l' : Ledger}

/-- Enters a pair, at the place of its operator or at the end. There is no entry to write to if the
    index leads out of the entries. -/
def enter? (l : Ledger) (pair : Operator × NodeType) : Option Ledger :=
  match l.index.lookup pair.1 with
  | some place =>
    if place < l.entries.length then
      some { l with entries := l.entries.modify place fun e => (e.1, pair.2) }
    else none
  | none => some ⟨l.entries ++ [pair], (pair.1, l.entries.length) :: l.index⟩

/-- The ledger of the given pairs. -/
def ofList? (pairs : List (Operator × NodeType)) : Option Ledger := pairs.foldlM enter? {}

/-- The node type at the place of an operator. -/
def resolve? (l : Ledger) (kind : Operator) : Option NodeType :=
  (l.index.lookup kind).bind fun place => l.entries[place]?.map Prod.snd

/-- Each operator stands where the index says, and nowhere else. -/
def Valid (l : Ledger) : Prop :=
  ∀ kind place, l.index.lookup kind = some place ↔ (l.entries.map Prod.fst)[place]? = some kind

theorem valid_empty : Valid {} := by
  intro kind place
  exact ⟨nofun, nofun⟩

theorem Valid.nodup (h : l.Valid) : (l.entries.map Prod.fst).Nodup := by
  refine List.nodup_iff_injective_get.mpr fun i j hij => Fin.ext ?_
  have hplace (i : Fin (l.entries.map Prod.fst).length) :
      l.index.lookup ((l.entries.map Prod.fst).get i) = some i.val :=
    (h _ i).mpr (List.getElem?_eq_getElem i.isLt)
  have hi := hplace i
  rw [hij, hplace j] at hi
  exact (Option.some.inj hi).symm

/-- An operator that the index does not have has no entry. -/
theorem Valid.notMem (h : l.Valid) {kind : Operator} (hi : l.index.lookup kind = none) :
    kind ∉ l.entries.map Prod.fst := by
  intro hm
  obtain ⟨place, hplace⟩ := List.mem_iff_getElem?.mp hm
  rw [(h kind place).mpr hplace] at hi
  cases hi

/-- **A valid index finds what a look-up entry by entry finds.** -/
theorem Valid.resolve?_eq (h : l.Valid) (kind : Operator) :
    l.resolve? kind = l.entries.lookup kind := by
  unfold resolve?
  cases hi : l.index.lookup kind with
  | none =>
    refine (Option.not_isSome_iff_eq_none.mp fun hs => ?_).symm
    exact h.notMem hi (Assoc.isSome_lookup_iff.mp hs)
  | some place =>
    have hkey := (h kind place).mp hi
    rw [List.getElem?_map] at hkey
    obtain ⟨⟨k, type⟩, he, rfl⟩ := Option.map_eq_some_iff.mp hkey
    rw [Assoc.lookup_of_mem h.nodup (List.mem_of_getElem? he), Option.bind_some, he]
    rfl

/-- A pair whose operator is new goes behind all places of the index. -/
theorem Valid.append (h : l.Valid) {pair : Operator × NodeType}
    (hi : l.index.lookup pair.1 = none) :
    Valid ⟨l.entries ++ [pair], (pair.1, l.entries.length) :: l.index⟩ := by
  intro kind place
  show ((pair.1, l.entries.length) :: l.index).lookup kind = some place ↔
    ((l.entries ++ [pair]).map Prod.fst)[place]? = some kind
  rw [List.map_append, List.map_singleton, getElem?_concat_eq_some, List.length_map,
    List.lookup_cons]
  by_cases hkind : kind = pair.1
  · subst hkind
    have hnone : (l.entries.map Prod.fst)[place]? ≠ some pair.1 :=
      fun hplace => h.notMem hi (List.mem_of_getElem? hplace)
    rw [or_iff_right hnone]
    simp [eq_comm]
  · simp [beq_false_of_ne hkind, Ne.symm hkind, h kind place]

/-- **Entering a pair keeps the index valid**, and the entries are those of a catalogue. -/
theorem Valid.enter? (h : l.Valid) (pair : Operator × NodeType) :
    ∃ l', l.enter? pair = some l' ∧ l'.Valid ∧ l'.entries = Assoc.put pair.1 pair.2 l.entries := by
  unfold Ledger.enter?
  cases hi : l.index.lookup pair.1 with
  | none =>
    refine ⟨_, rfl, h.append hi, ?_⟩
    refine (Assoc.put_of_lookup_eq_none ?_).symm
    rw [← h.resolve?_eq]
    unfold resolve?
    rw [hi]
    rfl
  | some place =>
    have hplace := (h pair.1 place).mp hi
    have hput : Assoc.put pair.1 pair.2 l.entries = l.entries.modify place fun e => (e.1, pair.2) :=
      Assoc.put_eq_modify h.nodup hplace
    have hlt : place < l.entries.length := by
      rw [← List.length_map Prod.fst]
      exact (List.getElem?_eq_some_iff.mp hplace).1
    refine ⟨_, if_pos hlt, fun kind other => ?_, hput.symm⟩
    show l.index.lookup kind = some other ↔ _
    rw [← hput, Assoc.map_fst_put, if_pos (List.mem_of_getElem? hplace)]
    exact h kind other

/-- What one pair keeps, all of them keep. -/
theorem Valid.foldlM_enter? (h : l.Valid) (pairs : List (Operator × NodeType)) :
    ∃ l', pairs.foldlM Ledger.enter? l = some l' ∧ l'.Valid ∧
      l'.entries = pairs.foldl (fun entries p => Assoc.put p.1 p.2 entries) l.entries := by
  induction pairs generalizing l with
  | nil => exact ⟨l, rfl, h, rfl⟩
  | cons pair pairs ih =>
    obtain ⟨l₁, hl₁, hvalid₁, hentries₁⟩ := h.enter? pair
    obtain ⟨l', hl', hvalid, hentries⟩ := ih hvalid₁
    refine ⟨l', ?_, hvalid, ?_⟩
    · rw [List.foldlM_cons, hl₁]
      exact hl'
    · rw [hentries, hentries₁]
      rfl

end Ledger

/-- **The last pair of an operator wins.** A catalogue of pairs finds the node type of the last
    pair, and nothing if there is none; it lists each operator once, in order of first occurrence,
    with that node type; and further pairs put behind its entries win where they say something. A
    ledger of the pairs is never led out of its entries, has the same ones, and finds the same by
    its index. -/
theorem Catalogue.ofList_lastWins (pairs more : List (Operator × NodeType)) :
    (∀ kind, (ofList pairs).resolve? kind = lastFor? pairs kind) ∧
      (ofList pairs).entries.map Prod.fst = (pairs.map Prod.fst).eraseDups ∧
      (∀ entry ∈ (ofList pairs).entries, lastFor? pairs entry.1 = some entry.2) ∧
      (∀ kind, (ofList ((ofList pairs).entries ++ more)).resolve? kind =
        (lastFor? more kind).or ((ofList pairs).resolve? kind)) ∧
      ∃ l, Ledger.ofList? pairs = some l ∧ l.entries = (ofList pairs).entries ∧ l.Valid ∧
        ∀ kind, l.resolve? kind = (ofList pairs).resolve? kind := by
  refine ⟨resolve?_ofList pairs, map_fst_ofList pairs, fun entry he => ?_, fun kind => ?_, ?_⟩
  · rw [← resolve?_ofList]
    exact Assoc.lookup_of_mem (nodup_ofList pairs) he
  · rw [resolve?_ofList, lastFor?_append, lastFor?_eq_lookup (nodup_ofList pairs)]
    rfl
  · obtain ⟨l, hl, hvalid, hentries⟩ := Ledger.valid_empty.foldlM_enter? pairs
    refine ⟨l, hl, hentries, hvalid, fun kind => ?_⟩
    rw [hvalid.resolve?_eq, hentries]
    rfl

-- An undefined function that bears the name of an operator is another operator.
example : (Catalogue.ofList [(.add, ⟨"a"⟩), (.undefined "Add", ⟨"b"⟩), (.add, ⟨"c"⟩)]).entries =
    [(.add, ⟨"c"⟩), (.undefined "Add", ⟨"b"⟩)] := by decide

end FormulaGraph
