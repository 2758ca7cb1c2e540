/-
  File:      FormulaGraph/Proofs/Store/FreshName.lean
  Subject:   A name that is handed out is not taken.

  The search for a free number tries as many numbers as there are taken names and gives back the
  next one untried. It is free all the same: numbered names differ, so the taken names cannot hold
  one more of them than they are.

  * `le_freeNumber`, `mem_of_lt_freeNumber`, `notMem_freeNumber` -- what the bounded search finds;
  * `freeNumber_le_length`, `numberedName_inj` -- how large it is, and that names tell it;
  * `uniqueName_notMem` -- the name that comes out is free.
-/
import Mathlib.Data.List.Nodup
import FormulaGraph.Proofs.Store.Path

namespace FormulaGraph

variable {base : String} {taken : List String}

/-! ## 1. The bounded search -/

theorem freeNumber_le (tries k : Nat) : freeNumber base taken tries k ≤ k + tries := by
  fun_induction freeNumber base taken tries k with
  | case1 k => exact Nat.le_refl k
  | case2 tries k h ih => omega
  | case3 tries k h => omega

theorem le_freeNumber (tries k : Nat) : k ≤ freeNumber base taken tries k := by
  fun_induction freeNumber base taken tries k with
  | case1 k => exact Nat.le_refl k
  | case2 tries k h ih => omega
  | case3 tries k h => exact Nat.le_refl k

/-- Every number that was passed over is taken. -/
theorem mem_of_lt_freeNumber {tries k i : Nat} (hk : k ≤ i)
    (hi : i < freeNumber base taken tries k) : numberedName base i ∈ taken := by
  fun_induction freeNumber base taken tries k with
  | case1 k => omega
  | case2 tries k h ih =>
      by_cases he : i = k
      · rw [he]; exact h
      · exact ih (by omega) hi
  | case3 tries k h => omega

/-- A search that ends before its tries are used up ends at a free number. -/
theorem notMem_of_freeNumber_lt {tries k : Nat} (h : freeNumber base taken tries k < k + tries) :
    numberedName base (freeNumber base taken tries k) ∉ taken := by
  fun_induction freeNumber base taken tries k with
  | case1 k => omega
  | case2 tries k _ ih => exact ih (by omega)
  | case3 tries k h' => exact h'

/-! ## 2. As many tries as taken names -/

/-- `n` numbered names among the taken ones are no more than these. -/
theorem le_length_of_numbered {k n : Nat}
    (h : ∀ i, k ≤ i → i < k + n → numberedName base i ∈ taken) : n ≤ taken.length := by
  have hnodup : ((List.range' k n).map (numberedName base)).Nodup :=
    List.Nodup.map (numberedName_injective base) List.nodup_range'
  have hsub : (List.range' k n).map (numberedName base) ⊆ taken := by
    intro name hm
    obtain ⟨i, hi, rfl⟩ := List.mem_map.mp hm
    have := List.mem_range'_1.mp hi
    exact h i this.1 this.2
  simpa using hnodup.length_le_of_subset hsub

theorem notMem_freeNumber (k : Nat) :
    numberedName base (freeNumber base taken taken.length k) ∉ taken := by
  by_cases h : freeNumber base taken taken.length k < k + taken.length
  · exact notMem_of_freeNumber_lt h
  · -- all tries failed: one more taken name would be one too many
    intro hm
    have he : freeNumber base taken taken.length k = k + taken.length := by
      have := @freeNumber_le base taken taken.length k
      omega
    have hall : ∀ i, k ≤ i → i < k + (taken.length + 1) → numberedName base i ∈ taken := by
      intro i hk hi
      by_cases hl : i < k + taken.length
      · exact mem_of_lt_freeNumber hk (he ▸ hl)
      · rw [show i = k + taken.length by omega, ← he]
        exact hm
    have := le_length_of_numbered hall
    omega

/-- The first free number lies no further behind the last one than there are names taken, where the
    bare name is one of them. -/
theorem freeNumber_le_length {last : Nat} (h : base ∈ taken) :
    freeNumber base taken taken.length (last + 1) ≤ taken.length + last := by
  have hnumbered : ∀ i, last + 1 ≤ i → i < freeNumber base taken taken.length (last + 1) →
      numberedName base i ∈ taken := fun i h₁ h₂ => mem_of_lt_freeNumber h₁ h₂
  generalize freeNumber base taken taken.length (last + 1) = k at hnumbered ⊢
  have hnodup :
      (base :: (List.range' (last + 1) (k - last - 1)).map (numberedName base)).Nodup := by
    refine List.nodup_cons.mpr
      ⟨fun hm => ?_, List.Nodup.map (numberedName_injective base) List.nodup_range'⟩
    obtain ⟨i, _, he⟩ := List.mem_map.mp hm
    have hlen := congrArg (fun name => name.toList.length) he
    simp only [toList_numberedName, List.length_append, List.length_cons] at hlen
    omega
  have hsub : base :: (List.range' (last + 1) (k - last - 1)).map (numberedName base) ⊆ taken := by
    intro name hm
    rcases List.mem_cons.mp hm with rfl | hm
    · exact h
    · obtain ⟨i, hi, rfl⟩ := List.mem_map.mp hm
      have hi := List.mem_range'_1.mp hi
      exact hnumbered i hi.1 (by omega)
  have hle := hnodup.length_le_of_subset hsub
  simp only [List.length_cons, List.length_map, List.length_range'] at hle
  omega

/-- A numbered name tells its base and its number. -/
theorem numberedName_inj {other : String} {j k : Nat} :
    numberedName base j = numberedName other k ↔ base = other ∧ j = k := by
  refine ⟨fun h => ?_, fun ⟨h₁, h₂⟩ => by rw [h₁, h₂]⟩
  have hmark : ∀ n, '_' ∉ Nat.toDigits 10 n := by
    intro n hm
    exact absurd (Nat.isDigit_of_mem_toDigits (by decide) (by decide) hm) (by decide)
  have hlist := congrArg String.toList h
  rw [toList_numberedName, toList_numberedName] at hlist
  obtain rfl := String.toList_inj.mp (append_cons_inj_last (hmark j) (hmark k) hlist).1
  exact ⟨rfl, numberedName_injective base h⟩

/-- **A name that is handed out is not taken.** -/
theorem uniqueName_notMem (base : String) (last : Nat) (taken : List String) :
    (uniqueName base last taken).1 ∉ taken := by
  unfold uniqueName
  split
  · exact notMem_freeNumber (last + 1)
  · assumption

theorem uniqueName_of_notMem {last : Nat} (h : base ∉ taken) :
    uniqueName base last taken = (base, last) := by
  simp [uniqueName, h]

/-- A name that is handed out is the wanted one or a numbered one. -/
theorem uniqueName_cases (base : String) (last : Nat) (taken : List String) :
    (uniqueName base last taken).1 = base ∨
      ∃ k, (uniqueName base last taken).1 = numberedName base k := by
  unfold uniqueName
  split
  · exact .inr ⟨_, rfl⟩
  · exact .inl rfl

theorem IsSegment.uniqueName (h : IsSegment base) (last : Nat) (taken : List String) :
    IsSegment (uniqueName base last taken).1 := by
  rcases uniqueName_cases base last taken with he | ⟨k, he⟩
  · rw [he]; exact h
  · rw [he]; exact h.numberedName k

theorem IsPlain.uniqueName (h : IsPlain base) (last : Nat) (taken : List String) :
    IsPlain (uniqueName base last taken).1 := by
  rcases uniqueName_cases base last taken with he | ⟨k, he⟩
  · rw [he]; exact h
  · rw [he]; exact h.numberedName k

end FormulaGraph
