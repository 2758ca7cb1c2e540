/-
  File:      FormulaGraph/Proofs/Text/Boundary.lean
  Subject:   Where a text can be cut.

  An offset into a text is good for cutting if it stands between two characters. All cuts at such
  offsets succeed, and a stretch between two of them has the same boundaries as the text.

  * `Boundary` -- an offset between two characters, or at either end;
  * `Boundary.within` -- boundaries of a text are boundaries of its parts;
  * `Span.Fits` -- a span whose ends are boundaries, in order;
  * `Span.Fits.text` -- such a span denotes a stretch of the text.
-/
import FormulaGraph.Text.Span

namespace FormulaGraph

namespace Text

/-- An offset at which the text can be cut in two. -/
def Boundary (cs : List Char) (i : Nat) : Prop :=
  ∃ front back, cs = front ++ back ∧ i = byteSize front

variable {cs a b c : List Char} {i j : Nat}

theorem boundary_append (a b : List Char) : Boundary (a ++ b) (byteSize a) := ⟨a, b, rfl, rfl⟩

theorem boundary_zero (cs : List Char) : Boundary cs 0 := ⟨[], cs, rfl, rfl⟩

theorem boundary_byteSize (cs : List Char) : Boundary cs (byteSize cs) :=
  ⟨cs, [], (List.append_nil cs).symm, rfl⟩

theorem Boundary.le (h : Boundary cs i) : i ≤ byteSize cs := by
  obtain ⟨front, back, rfl, rfl⟩ := h
  rw [byteSize_append]
  exact Nat.le_add_right _ _

theorem Boundary.takeBytes (h : Boundary cs i) : ∃ front, takeBytes? i cs = some front := by
  obtain ⟨front, back, rfl, rfl⟩ := h
  exact ⟨front, takeBytes?_append front back⟩

theorem Boundary.dropBytes (h : Boundary cs i) : ∃ back, dropBytes? i cs = some back := by
  obtain ⟨front, back, rfl, rfl⟩ := h
  exact ⟨back, dropBytes?_append front back⟩

theorem byteSize_eq_zero (h : byteSize cs = 0) : cs = [] := by
  cases cs with
  | nil => rfl
  | cons c cs =>
    have := c.utf8Size_pos
    rw [byteSize_cons] at h
    omega

/-- Of two front parts of one text, the one with fewer bytes is a front part of the other. -/
theorem front_of_le {front back front' back' : List Char}
    (h : front ++ back = front' ++ back') (hle : byteSize front ≤ byteSize front') :
    ∃ middle, front' = front ++ middle ∧ back = middle ++ back' := by
  rcases List.append_eq_append_iff.mp h with ⟨middle, hfront, hback⟩ | ⟨middle, hfront, hback⟩
  · exact ⟨middle, hfront, hback⟩
  · rw [hfront, byteSize_append] at hle
    have hnil : middle = [] := byteSize_eq_zero (by omega)
    subst hnil
    rw [List.append_nil] at hfront
    exact ⟨[], by rw [hfront, List.append_nil], hback.symm⟩

/-- A boundary of a text that lies in one of its parts is a boundary of the part. -/
theorem Boundary.within (h : Boundary (a ++ (b ++ c)) i) (hlow : byteSize a ≤ i)
    (hhigh : i ≤ byteSize a + byteSize b) : Boundary b (i - byteSize a) := by
  obtain ⟨front, back, htext, rfl⟩ := h
  obtain ⟨middle, rfl, hrest⟩ := front_of_le htext hlow
  rw [byteSize_append] at hhigh ⊢
  obtain ⟨last, rfl, -⟩ := front_of_le hrest.symm (by omega)
  exact ⟨middle, last, rfl, by omega⟩

end Text

namespace Span

/-- A span that denotes a stretch of the text. -/
structure Fits (cs : List Char) (s : Span) : Prop where
  start : Text.Boundary cs s.start
  stop : Text.Boundary cs s.stop
  ordered : s.start ≤ s.stop

variable {cs : List Char} {s s' : Span}

/-- The text in front of the span, its own, and the text behind it. -/
theorem Fits.split (h : s.Fits cs) :
    ∃ a b c, cs = a ++ (b ++ c) ∧ s.start = Text.byteSize a ∧
      s.stop = Text.byteSize a + Text.byteSize b := by
  obtain ⟨a, rest, rfl, hstart⟩ := h.start
  obtain ⟨front, c, htext, hstop⟩ := h.stop
  have hle := h.ordered
  rw [hstart, hstop] at hle
  obtain ⟨b, rfl, rfl⟩ := Text.front_of_le htext hle
  exact ⟨a, b, c, rfl, hstart, by rw [hstop, Text.byteSize_append]⟩

/-- **A span that fits can be cut out.** -/
theorem Fits.text (h : s.Fits cs) : ∃ text, s.text? cs = some text := by
  obtain ⟨a, b, c, rfl, hstart, hstop⟩ := h.split
  refine ⟨b, ?_⟩
  unfold text?
  rw [hstart, hstop]
  exact Text.slice?_append a b c

theorem Fits.stop_le (h : s.Fits cs) : s.stop ≤ Text.byteSize cs := h.stop.le

/-- From one span to another that does not end before it. -/
theorem Fits.join (h : s.Fits cs) (h' : s'.Fits cs) (hle : s.start ≤ s'.stop) :
    (s.join s').Fits cs := ⟨h.start, h'.stop, hle⟩

end Span

end FormulaGraph
