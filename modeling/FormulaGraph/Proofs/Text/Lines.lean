/-
  File:      FormulaGraph/Proofs/Text/Lines.lean
  Subject:   Lines, and the line that an offset lies on.

  Line starts are boundaries, in order, and the first one is the start of the text. So every offset
  has a line, the line can be cut out, and an offset that is a boundary of the text is one of its
  line.

  * `locate_spec` -- the line that `locate` gives is the one that holds the offset;
  * `line_of_boundary` -- that line can be cut out, and so can its part in front of the offset;
  * `OneLine` -- a text without a newline.
-/
import FormulaGraph.Proofs.Text.Boundary
import FormulaGraph.Text.Lines

namespace FormulaGraph

namespace Text

variable {cs : List Char} {i : Nat}

/-! ## 1. Line starts -/

/-- The offset is behind a newline. -/
theorem startsBehindNewlines_boundary {front back : List Char} :
    i ∈ startsBehindNewlines (byteSize front) back →
      Boundary (front ++ back) i ∧ byteSize front < i := by
  induction back generalizing front with
  | nil => exact fun h => absurd h List.not_mem_nil
  | cons c back ih =>
    intro h
    have hnext : byteSize front + c.utf8Size = byteSize (front ++ [c]) := by
      rw [byteSize_append]
      rfl
    have htext : front ++ c :: back = (front ++ [c]) ++ back := by simp
    have hpos := c.utf8Size_pos
    have hrest : i ∈ startsBehindNewlines (byteSize (front ++ [c])) back →
        Boundary (front ++ c :: back) i ∧ byteSize front < i := by
      intro h
      obtain ⟨hboundary, hlt⟩ := ih h
      rw [htext]
      exact ⟨hboundary, by omega⟩
    unfold startsBehindNewlines at h
    dsimp only at h
    rw [hnext] at h
    split at h
    · rcases List.mem_cons.mp h with rfl | h
      · rw [htext]
        exact ⟨boundary_append _ _, by omega⟩
      · exact hrest h
    · exact hrest h

theorem boundary_of_lineStart (h : i ∈ lineStarts cs) : Boundary cs i := by
  rcases List.mem_cons.mp h with rfl | h
  · exact boundary_zero cs
  · have h : i ∈ startsBehindNewlines (byteSize []) cs := h
    exact (startsBehindNewlines_boundary h).1

/-! ## 2. The line of an offset -/

/-- **The line that is found begins at or before the offset, and the next one behind it.** -/
theorem locate_spec (cs : List Char) (i : Nat) :
    ∃ start, (lineStarts cs)[(locate cs i).1]? = some start ∧ start + (locate cs i).2 = i ∧
      ∀ next, (lineStarts cs)[(locate cs i).1 + 1]? = some next → i < next := by
  have hne : (lineStarts cs).takeWhile (· ≤ i) ≠ [] := by
    simp [lineStarts]
  obtain ⟨init, last, hupTo⟩ : ∃ init last, (lineStarts cs).takeWhile (· ≤ i) = init ++ [last] :=
    ⟨_, _, (List.dropLast_concat_getLast hne).symm⟩
  have hlast : last ≤ i := by
    have hmem : last ∈ (lineStarts cs).takeWhile (· ≤ i) := by simp [hupTo]
    simpa using List.all_eq_true.mp List.all_takeWhile last hmem
  have hstarts : lineStarts cs = init ++ last :: (lineStarts cs).dropWhile (· ≤ i) := by
    have h := List.takeWhile_append_dropWhile (p := (· ≤ i)) (l := lineStarts cs)
    rw [hupTo] at h
    simpa using h.symm
  have hline : (locate cs i).1 = init.length := by
    simp [locate, hupTo]
  have hposition : (locate cs i).2 = i - last := by
    simp [locate, hupTo]
  rw [hline, hposition]
  refine ⟨last, ?_, by omega, fun next hnext => ?_⟩
  · rw [hstarts]
    simp
  · have hhead : ((lineStarts cs).dropWhile (· ≤ i)).head? = some next := by
      rw [hstarts] at hnext
      simpa [List.getElem?_append_right, List.head?_eq_getElem?] using hnext
    have hnot := List.head?_dropWhile_not (· ≤ i) (lineStarts cs)
    rw [hhead] at hnot
    simpa using hnot

/-- **The line of a boundary can be cut out, and the boundary lies within it.** -/
theorem line_of_boundary (h : Boundary cs i) :
    ∃ a content c, cs = a ++ (content ++ c) ∧ line? cs (locate cs i).1 = some content ∧
      byteSize a + (locate cs i).2 = i ∧ i ≤ byteSize a + byteSize content := by
  obtain ⟨start, hstart, hposition, hnext⟩ := locate_spec cs i
  -- the line ends where the next one begins, or with the text
  have hend : ∃ stop, (lineStarts cs)[(locate cs i).1 + 1]?.getD (byteSize cs) = stop ∧
      Boundary cs stop ∧ i ≤ stop := by
    cases hn : (lineStarts cs)[(locate cs i).1 + 1]? with
    | none => exact ⟨_, rfl, boundary_byteSize cs, h.le⟩
    | some next =>
      exact ⟨_, rfl, boundary_of_lineStart (List.mem_of_getElem? hn), Nat.le_of_lt (hnext next hn)⟩
  obtain ⟨stop, hstop, hboundary, hle⟩ := hend
  have hfits : Span.Fits cs ⟨start, stop⟩ :=
    ⟨boundary_of_lineStart (List.mem_of_getElem? hstart), hboundary, by dsimp only; omega⟩
  obtain ⟨a, content, c, rfl, ha, hcontent⟩ := hfits.split
  dsimp only at ha hcontent
  refine ⟨a, content, c, rfl, ?_, by omega, by omega⟩
  unfold line?
  dsimp only
  rw [hstart, hstop, Option.bind_some, ha, hcontent]
  exact slice?_append a content c

end Text

/-! ## 3. Texts of one line -/

/-- A text without a newline. -/
def OneLine (s : String) : Prop := '\n' ∉ s.toList

instance (s : String) : Decidable (OneLine s) := inferInstanceAs (Decidable (¬ _))

@[simp] theorem oneLine_append {s s' : String} : OneLine (s ++ s') ↔ OneLine s ∧ OneLine s' := by
  simp [OneLine]

@[simp] theorem oneLine_toString_nat (n : Nat) : OneLine (toString n) := by
  intro h
  have hmem : '\n' ∈ Nat.toDigits 10 n := by simpa using h
  have hdigit := Nat.isDigit_of_mem_toDigits (by decide) (by decide) hmem
  exact absurd hdigit (by decide)

@[simp] theorem oneLine_toString {s : String} : OneLine (toString s) ↔ OneLine s := Iff.rfl

end FormulaGraph
