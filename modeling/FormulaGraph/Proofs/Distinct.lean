/-
  File:      FormulaGraph/Proofs/Distinct.lean
  Subject:   The members of a list in order of first occurrence.

  * `nodup_eraseDups` -- each stands once;
  * `eraseDups_concat` -- a last member is kept if it is new;
  * `eraseDups_map`, `eraseDups_filterMap_eraseDups` -- what is read off the members.
-/
import Mathlib.Data.List.Induction
import Mathlib.Data.List.Nodup

namespace FormulaGraph

variable {α β : Type} [BEq α] [LawfulBEq α] [BEq β] [LawfulBEq β]

theorem eraseDups_append_of_subset {as bs : List α} (h : ∀ b ∈ bs, b ∈ as) :
    (as ++ bs).eraseDups = as.eraseDups := by
  have hnone : bs.removeAll as = [] :=
    List.filter_eq_nil_iff.mpr fun b hb => by simpa using h b hb
  rw [List.eraseDups_append, hnone, List.eraseDups_nil, List.append_nil]

theorem eraseDups_concat_of_notMem {as : List α} {a : α} (h : a ∉ as) :
    (as ++ [a]).eraseDups = as.eraseDups ++ [a] := by
  have hkept : [a].removeAll as = [a] := by simpa [List.removeAll] using h
  rw [List.eraseDups_append, hkept]
  rfl

theorem eraseDups_concat (as : List α) (a : α) :
    (as ++ [a]).eraseDups = if a ∈ as then as.eraseDups else as.eraseDups ++ [a] := by
  split
  · rename_i h
    exact eraseDups_append_of_subset (List.forall_mem_singleton.mpr h)
  · rename_i h
    exact eraseDups_concat_of_notMem h

theorem nodup_eraseDups (as : List α) : as.eraseDups.Nodup := by
  induction as using List.reverseRecOn with
  | nil => exact List.nodup_nil
  | append_singleton as a ih =>
    by_cases h : a ∈ as
    · rwa [eraseDups_append_of_subset (List.forall_mem_singleton.mpr h)]
    · rw [eraseDups_concat_of_notMem h, ← List.concat_eq_append, List.nodup_concat]
      exact ⟨mt List.mem_eraseDups.mp h, ih⟩

theorem eraseDups_of_nodup {as : List α} (h : as.Nodup) : as.eraseDups = as := by
  induction as using List.reverseRecOn with
  | nil => rfl
  | append_singleton as a ih =>
    rw [← List.concat_eq_append, List.nodup_concat] at h
    rw [eraseDups_concat_of_notMem h.1, ih h.2]

theorem eraseDups_eraseDups_append (as bs : List α) :
    (as.eraseDups ++ bs).eraseDups = (as ++ bs).eraseDups := by
  have hsame : bs.removeAll as.eraseDups = bs.removeAll as :=
    List.filter_congr fun b _ => by simp [List.mem_eraseDups]
  rw [List.eraseDups_append, List.eraseDups_append, hsame, eraseDups_of_nodup (nodup_eraseDups as)]

theorem eraseDups_map {f : α → β} (hf : Function.Injective f) (as : List α) :
    (as.map f).eraseDups = as.eraseDups.map f := by
  induction as using List.reverseRecOn with
  | nil => rfl
  | append_singleton as a ih =>
    rw [List.map_append, List.map_singleton]
    by_cases h : a ∈ as
    · rw [eraseDups_append_of_subset (List.forall_mem_singleton.mpr (List.mem_map_of_mem h)), ih,
        eraseDups_append_of_subset (List.forall_mem_singleton.mpr h)]
    · rw [eraseDups_concat_of_notMem (mt (List.mem_map_of_injective hf).mp h), ih,
        eraseDups_concat_of_notMem h, List.map_append, List.map_singleton]

/-- Keeping first occurrences before reading members off loses no first occurrence of what is
    read. -/
theorem eraseDups_filterMap_eraseDups (f : α → Option β) (as : List α) :
    (as.eraseDups.filterMap f).eraseDups = (as.filterMap f).eraseDups := by
  induction as using List.reverseRecOn with
  | nil => rfl
  | append_singleton as a ih =>
    rw [List.filterMap_append]
    by_cases hm : a ∈ as
    · -- what is read off `a` has been read off before
      rw [eraseDups_append_of_subset (List.forall_mem_singleton.mpr hm), ih,
        eraseDups_append_of_subset]
      intro b hb
      obtain ⟨other, ho, hf⟩ := List.mem_filterMap.mp hb
      rw [List.mem_singleton.mp ho] at hf
      exact List.mem_filterMap.mpr ⟨a, hm, hf⟩
    · rw [eraseDups_concat_of_notMem hm, List.filterMap_append, ← eraseDups_eraseDups_append, ih,
        eraseDups_eraseDups_append]

end FormulaGraph
