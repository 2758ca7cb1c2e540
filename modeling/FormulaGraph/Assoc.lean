/-
  File:      FormulaGraph/Assoc.lean
  Subject:   Lists of keys and values, in order of first entry.

  Looking up is `List.lookup`. Entering a key again replaces its value and keeps its place.

  * `lookup_put`, `lookup_modify`, `lookup_filter` -- what is found afterwards;
  * `map_fst_modify`, `put_of_lookup_eq_none` -- which keys there are afterwards.
-/

namespace FormulaGraph.Assoc

variable {κ α : Type} [DecidableEq κ]

/-- Replaces the value of a key, or appends the key. -/
def put (key : κ) (value : α) : List (κ × α) → List (κ × α)
  | [] => [(key, value)]
  | (k, v) :: rest => if k = key then (k, value) :: rest else (k, v) :: put key value rest

/-- Changes the value of a key that is there. -/
def modify (key : κ) (f : α → α) : List (κ × α) → List (κ × α)
  | [] => []
  | (k, v) :: rest => if k = key then (k, f v) :: rest else (k, v) :: modify key f rest

theorem lookup_put (key other : κ) (value : α) (entries : List (κ × α)) :
    (put key value entries).lookup other =
      if other = key then some value else entries.lookup other := by
  induction entries with
  | nil =>
    by_cases h : other = key
    · simp [put, h]
    · simp [put, List.lookup_cons, h, beq_false_of_ne h]
  | cons e rest ih =>
    obtain ⟨k, v⟩ := e
    unfold put
    by_cases hk : k = key
    · subst hk
      by_cases h : other = k
      · simp [h]
      · simp [List.lookup_cons, h, beq_false_of_ne h]
    · rw [if_neg hk]
      by_cases h : other = k
      · subst h; simp [hk]
      · simp only [List.lookup_cons, beq_false_of_ne h]; exact ih

theorem lookup_modify (key other : κ) (f : α → α) (entries : List (κ × α)) :
    (modify key f entries).lookup other =
      if other = key then (entries.lookup other).map f else entries.lookup other := by
  induction entries with
  | nil => simp [modify]
  | cons e rest ih =>
    obtain ⟨k, v⟩ := e
    unfold modify
    by_cases hk : k = key
    · subst hk
      by_cases h : other = k
      · simp [h]
      · simp [List.lookup_cons, h, beq_false_of_ne h]
    · rw [if_neg hk]
      by_cases h : other = k
      · subst h; simp [hk]
      · simp only [List.lookup_cons, beq_false_of_ne h]; exact ih

/-- Changing the value that was just entered enters the changed one. -/
theorem modify_put (key : κ) (f : α → α) (value : α) (entries : List (κ × α)) :
    modify key f (put key value entries) = put key (f value) entries := by
  induction entries with
  | nil => simp [put, modify]
  | cons e rest ih =>
    obtain ⟨k, v⟩ := e
    by_cases hk : k = key
    · simp [put, modify, hk]
    · simp [put, modify, hk, ih]

/-- A key that is not there is appended. -/
theorem put_of_lookup_eq_none {key : κ} {value : α} {entries : List (κ × α)}
    (h : entries.lookup key = none) : put key value entries = entries ++ [(key, value)] := by
  induction entries with
  | nil => rfl
  | cons e rest ih =>
    obtain ⟨k, v⟩ := e
    by_cases hk : key = k
    · subst hk; simp at h
    · rw [put, if_neg (Ne.symm hk), List.cons_append, ih]
      simpa only [List.lookup_cons, beq_false_of_ne hk] using h

/-- Changing a value changes no key. -/
@[simp] theorem map_fst_modify (key : κ) (f : α → α) (entries : List (κ × α)) :
    (modify key f entries).map Prod.fst = entries.map Prod.fst := by
  induction entries with
  | nil => rfl
  | cons e rest ih =>
    obtain ⟨k, v⟩ := e
    unfold modify
    split
    · rfl
    · simp [ih]

/-- A key that a first part does not have is changed in the second. -/
theorem modify_append_of_notMem {key : κ} {f : α → α} {entries : List (κ × α)}
    (h : key ∉ entries.map Prod.fst) (more : List (κ × α)) :
    modify key f (entries ++ more) = entries ++ modify key f more := by
  induction entries with
  | nil => rfl
  | cons e rest ih =>
    obtain ⟨k, v⟩ := e
    simp only [List.map_cons, List.mem_cons, not_or] at h
    rw [List.cons_append, modify, if_neg (Ne.symm h.1), ih h.2, List.cons_append]

theorem isSome_lookup_iff {key : κ} {entries : List (κ × α)} :
    (entries.lookup key).isSome ↔ key ∈ entries.map Prod.fst := by
  rw [List.lookup_isSome_iff, List.mem_map]
  exact exists_congr fun e => and_congr_right fun _ => beq_iff_eq.trans eq_comm

theorem mem_of_lookup {key : κ} {value : α} {entries : List (κ × α)}
    (h : entries.lookup key = some value) : (key, value) ∈ entries := by
  obtain ⟨before, after, rfl, -⟩ := List.lookup_eq_some_iff.mp h
  exact List.mem_append_right before List.mem_cons_self

/-- Where no key stands twice, every entry is found under its key. -/
theorem lookup_of_mem {key : κ} {value : α} {entries : List (κ × α)}
    (hn : (entries.map Prod.fst).Nodup) (h : (key, value) ∈ entries) :
    entries.lookup key = some value := by
  induction entries with
  | nil => simp at h
  | cons e rest ih =>
    obtain ⟨k, v⟩ := e
    simp only [List.map_cons, List.nodup_cons] at hn
    rcases List.mem_cons.mp h with he | hm
    · obtain ⟨rfl, rfl⟩ := Prod.mk.inj he
      simp
    · have hk : key ≠ k := fun he => hn.1 (he ▸ List.mem_map_of_mem hm)
      simp only [List.lookup_cons, beq_false_of_ne hk]
      exact ih hn.2 hm

/-- Dropping keys drops what is found under them, and nothing else. -/
theorem lookup_filter (keep : κ → Bool) (key : κ) (entries : List (κ × α)) :
    (entries.filter fun e => keep e.1).lookup key =
      if keep key then entries.lookup key else none := by
  induction entries with
  | nil => simp
  | cons e rest ih =>
    obtain ⟨k, v⟩ := e
    by_cases hk : key = k
    · subst hk
      by_cases h : keep key
      · simp [List.filter, h]
      · simp only [List.filter, h, ih]
        simp
    · by_cases h : keep k
      · simp only [List.filter, h, List.lookup_cons, beq_false_of_ne hk, ih]
      · simp only [List.filter, h, List.lookup_cons, beq_false_of_ne hk, ih]

end FormulaGraph.Assoc
