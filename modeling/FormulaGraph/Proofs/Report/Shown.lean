/-
  File:      FormulaGraph/Proofs/Report/Shown.lean
  Subject:   What can be shown, and on how many lines.

  An entry can be shown if its span fits the text. The code around the span loses its newlines, so
  the entry takes one line if its message does.

  * `FormulaError.Presentable` -- a cause whose place fits the text and whose message is one line;
  * `Report.code_of_fits` -- the code around a span that fits;
  * `Report.print_failure` -- a presentable cause adds one line to a printed report.
-/
import FormulaGraph.Proofs.Bind
import FormulaGraph.Proofs.Text.Lines
import FormulaGraph.Report.Printer

namespace FormulaGraph

/-! ## 1. Messages -/

/-- A cause that can be shown: its place fits the text, and its message is one line. -/
structure FormulaError.Presentable (cs : List Char) (e : FormulaError) : Prop where
  span : ∀ s, e.span? = some s → s.Fits cs
  message : OneLine e.message

theorem TokenKind.oneLine_name (kind : TokenKind) : OneLine kind.name := by
  cases kind <;>
  · rw [name]
    decide +kernel

theorem Arity.oneLine_text (arity : Arity) : OneLine arity.text := by
  cases arity with
  | exactly count => exact oneLine_toString_nat count
  | between least most =>
    refine oneLine_append.mpr ⟨oneLine_append.mpr ⟨oneLine_toString_nat least, ?_⟩,
      oneLine_toString_nat most⟩
    decide
  | atLeast least => exact oneLine_append.mpr ⟨by decide +kernel, oneLine_toString_nat least⟩

/-- What a message quotes is one line. -/
def FormulaError.Plain : FormulaError → Prop
  | badToken text _ => OneLine text
  | wrongArity name _ _ _ => OneLine name
  | _ => True

theorem FormulaError.Plain.oneLine {e : FormulaError} (h : e.Plain) : OneLine e.message := by
  have hkind := TokenKind.oneLine_name
  have hnat := oneLine_toString_nat
  cases e with
  | badToken text span =>
    unfold message
    simp only [oneLine_append]
    exact ⟨⟨by decide +kernel, h⟩, by decide⟩
  | empty => exact (by decide +kernel : OneLine "The expression is empty.")
  | tooDeep span =>
    unfold message
    simp only [oneLine_append]
    exact ⟨⟨by decide +kernel, hnat depthLimit⟩, by decide⟩
  | unexpected wanted found span =>
    unfold message
    simp only [oneLine_append]
    exact ⟨⟨⟨⟨by decide +kernel, hkind wanted⟩, by decide +kernel⟩, hkind found⟩, by decide⟩
  | noOperand found span =>
    unfold message
    simp only [oneLine_append]
    exact ⟨⟨by decide +kernel, hkind found⟩, by decide⟩
  | wrongArity name arity given span =>
    unfold message
    simp only [oneLine_append]
    exact ⟨⟨⟨⟨⟨⟨by decide, h⟩, by decide⟩, arity.oneLine_text⟩, by decide +kernel⟩, hnat given⟩,
      by decide +kernel⟩
  | moduloByZero span => exact (by decide +kernel : OneLine "Modulo by zero.")

namespace Report

variable {cs : List Char} {s : Span}

theorem oneLine_inColor (c : Color) {text : String} (h : OneLine text) :
    OneLine (inColor c text) := by
  simp only [inColor, oneLine_append, oneLine_toString, oneLine_toString_nat, h]
  decide

theorem oneLine_tag (severity : Severity) : OneLine (tag severity) := by
  cases severity <;> exact oneLine_inColor _ (by decide)

/-! ## 2. The code around a span -/

theorem codeWithin_of_fits (h : s.Fits cs) : ∃ within, codeWithin? cs s = some within := by
  unfold codeWithin?
  split
  · exact ⟨_, rfl⟩
  · obtain ⟨text, htext⟩ := h.text
    exact ⟨_, by rw [htext]; rfl⟩

/-- **The code around a span that fits, without newlines.** -/
theorem code_of_fits (h : s.Fits cs) : ∃ code, code? cs s = some code ∧ OneLine code := by
  obtain ⟨a, content, c, htext, hline, hposition, hle⟩ := Text.line_of_boundary h.start
  have hfront : Text.Boundary content (Text.locate cs s.start).2 := by
    have hstart := h.start
    rw [htext] at hstart
    have hwithin := hstart.within (by omega) hle
    rwa [show s.start - Text.byteSize a = (Text.locate cs s.start).2 by omega] at hwithin
  have hback : Text.Boundary content
      (min ((Text.locate cs s.start).2 + s.length) (Text.byteSize content)) := by
    have hordered := h.ordered
    have hlength : s.length = s.stop - s.start := rfl
    by_cases hshort : (Text.locate cs s.start).2 + s.length ≤ Text.byteSize content
    · -- the span ends on the line it begins on
      have hstop := h.stop
      rw [htext] at hstop
      have hwithin := hstop.within (by omega) (by omega)
      rw [Nat.min_eq_left hshort]
      have hend : s.stop - Text.byteSize a = (Text.locate cs s.start).2 + s.length := by omega
      rwa [hend] at hwithin
    · rw [Nat.min_eq_right (by omega)]
      exact Text.boundary_byteSize content
  obtain ⟨front, hfront⟩ := hfront.takeBytes
  obtain ⟨back, hback⟩ := hback.dropBytes
  obtain ⟨within, hwithin⟩ := codeWithin_of_fits h
  let code := codeBefore front ++ inColor .red within ++ codeAfter back
  refine ⟨String.ofList (code.toList.filter (· != '\n')), ?_, ?_⟩
  · unfold code?
    dsimp only
    rw [hline, Option.getD_some]
    exact bind_of_eq_some hfront (bind_of_eq_some hwithin (bind_of_eq_some hback rfl))
  · simp [OneLine]

/-! ## 3. Lines -/

/-- The line of an entry whose span, if it has one, fits. -/
theorem line_of_fits (entry : Entry) (hspan : ∀ s, entry.span = some s → s.Fits cs)
    (hmessage : OneLine entry.message) : ∃ line, line? cs entry = some line ∧ OneLine line := by
  have hmark := oneLine_tag entry.severity
  have hblue := oneLine_inColor .blue hmessage
  unfold line?
  dsimp only
  cases hs : entry.span with
  | none =>
    refine ⟨_, rfl, ?_⟩
    simp only [oneLine_append, oneLine_toString, hmark, hblue]
    decide
  | some span =>
    obtain ⟨code, hcode, hone⟩ := code_of_fits (hspan span hs)
    refine ⟨_, bind_of_eq_some hcode rfl, ?_⟩
    simp only [oneLine_append, oneLine_toString, oneLine_toString_nat, hmark, hone, hblue]
    decide

/-- One more entry is one more line. -/
theorem print_add {r : Report} {entry : Entry} {shown line : String}
    (hr : r.print? cs = some shown) (hline : line? cs entry = some line) :
    (r.add entry).print? cs = some (shown ++ (line ++ "\n")) := by
  unfold print? add at *
  obtain ⟨lines, hlines, rfl⟩ := Option.map_eq_some_iff.mp hr
  have hmap : (r.entries ++ [entry]).mapM (line? cs) = some (lines ++ [line]) := by
    rw [List.mapM_append, hlines]
    simp [hline]
  rw [hmap, Option.map_some, List.map_append, String.join_append]
  simp

theorem oneLine_invalidText {message : String} (h : OneLine message) :
    OneLine (Failure.invalidText message) :=
  oneLine_append.mpr ⟨by decide +kernel, h⟩

/-- An invalid formula is reported by one entry, at its place. -/
theorem invalid_eq_add (r : Report) {message : String} (h : OneLine message) (span? : Option Span) :
    ∃ text, OneLine text ∧ r.invalid message span? = r.add ⟨.error, text, span?⟩ := by
  cases span? with
  | none => exact ⟨_, oneLine_invalidText h, rfl⟩
  | some span => exact ⟨message, h, rfl⟩

/-- **A presentable cause adds one line to a printed report.** -/
theorem print_failure {r : Report} {e : FormulaError} {shown : String} (he : e.Presentable cs)
    (hr : r.print? cs = some shown) :
    ∃ line, OneLine line ∧
      (r.failure (.invalid e)).print? cs = some (shown ++ (line ++ "\n")) := by
  obtain ⟨text, htext, hinvalid⟩ := r.invalid_eq_add he.message e.span?
  obtain ⟨line, hline, hone⟩ := line_of_fits ⟨.error, text, e.span?⟩ he.span htext
  have hfailure : r.failure (.invalid e) = r.add ⟨.error, text, e.span?⟩ := hinvalid
  rw [hfailure]
  exact ⟨line, hone, print_add hr hline⟩

end Report

end FormulaGraph
