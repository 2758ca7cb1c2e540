/-
  File:      FormulaGraph/Proofs/Report/Refusal.lean
  Subject:   A text that is refused can be shown.

  The parts are proved elsewhere: tokens are stretches of the text, the parser's places fit the
  text, a machine that reads with an index has no fault, and a place that fits is shown on one
  line. Here they are put together for all texts.

  * `Formula.Placed.spans` -- all spans of a formula that is placed in a text fit it;
  * `Table.read_shown` -- reading a text, and reporting why it is refused.
-/
import FormulaGraph.Proofs.Grammar.Cursor
import FormulaGraph.Proofs.Grammar.Spans

namespace FormulaGraph

namespace Formula

theorem mem_spansAll {fs : List Formula} {s : Span} (h : s ∈ spansAll fs) :
    ∃ f ∈ fs, s ∈ f.spans := by
  induction fs with
  | nil => exact absurd h List.not_mem_nil
  | cons f fs ih =>
    rw [spansAll] at h
    rcases List.mem_append.mp h with h | h
    · exact ⟨f, List.mem_cons_self, h⟩
    · obtain ⟨g, hg, hs⟩ := ih h
      exact ⟨g, List.mem_cons_of_mem f hg, hs⟩

theorem Placed.spans {cs : List Char} {f : Formula} (h : f.Placed cs) :
    ∀ s ∈ f.spans, s.Fits cs := by
  induction h with
  | integer h | float h | symbol h =>
    intro s hs
    rw [List.mem_singleton.mp hs]
    exact h
  | binary h _ _ ihl ihr =>
    intro s hs
    rcases List.mem_cons.mp hs with rfl | hs
    · exact h
    · rcases List.mem_append.mp hs with hs | hs
      · exact ihl s hs
      · exact ihr s hs
  | negative h _ ih | group h _ ih =>
    intro s hs
    rcases List.mem_cons.mp hs with rfl | hs
    · exact h
    · exact ih s hs
  | call h _ _ ih =>
    intro s hs
    rcases List.mem_cons.mp hs with rfl | hs
    · exact h
    · obtain ⟨arg, harg, hs⟩ := mem_spansAll hs
      exact ih arg harg s hs

end Formula

/-- The tokens of a text can be cut out of it. -/
theorem Token.text_of_mem_lex {cs : List Char} {t : Token} (h : t ∈ Token.lex cs) :
    t.span.text? cs = some t.text := by
  have hlaid := Token.laid_scan cs
  rcases List.mem_append.mp h with h | h
  · exact (hlaid.fits t h).text
  · rw [List.mem_singleton.mp h]
    exact hlaid.stop_fits.text

/-- **Reading a text and showing why it is refused.** The tokens can be cut out of the text. The
    machine that reads them with an index and counts levels up and down has no fault and gives the
    parser's answer. All spans of a formula fit the text. Nothing but the opposite of `-2 ^ 127`
    overflows. If reading or lowering refuses the text, the place of the cause fits the text, its
    line is found, and reporting it adds one line to any report that could be printed before. -/
theorem Table.read_shown (cs : List Char) :
    (∀ t ∈ Token.lex cs, t.span.text? cs = some t.text) ∧
      (∃ least, ∀ n, least ≤ n → Cursor.parse n cs = (Formula.parse cs).mapError .refused) ∧
      (∀ f, Formula.parse cs = .ok f → ∀ s ∈ f.spans, s.Fits cs) ∧
      (∀ t cause t', Table.read cs t = .error (.overflow cause) t' → cause = ⟨2 ^ 127⟩) ∧
      ∀ t e t', Table.read cs t = .error (.refused e) t' →
        (∀ s, e.span? = some s →
          s.start ≤ s.stop ∧ s.stop ≤ Text.byteSize cs ∧
            Text.Boundary cs s.start ∧ Text.Boundary cs s.stop ∧
            ∃ start content, (Text.lineStarts cs)[(Text.locate cs s.start).1]? = some start ∧
              start + (Text.locate cs s.start).2 = s.start ∧
              Text.line? cs (Text.locate cs s.start).1 = some content) ∧
          ∀ (r : Report) shown, r.print? cs = some shown →
            ∃ line, '\n' ∉ line.toList ∧
              (r.failure (.invalid e)).print? cs = some (shown ++ (line ++ "\n")) := by
  have hpresentable {t t' : Table} {e : FormulaError}
      (he : Table.read cs t = .error (.refused e) t') : e.Presentable cs := by
    have hrefuses := Table.read_refuses cs t
    rwa [he] at hrefuses
  refine ⟨fun t ht => Token.text_of_mem_lex ht, Cursor.parse_eq cs, fun f hf => ?_,
    fun t cause t' ho => ?_, fun t e t' he => ⟨fun s hs => ?_, fun r shown hr => ?_⟩⟩
  · have hplaced := Formula.parse_settles cs
    rw [hf] at hplaced
    exact hplaced.spans
  · have hrefuses := Table.read_refuses cs t
    rwa [ho] at hrefuses
  · have hfits := (hpresentable he).span s hs
    obtain ⟨start, hstart, hposition, -⟩ := Text.locate_spec cs s.start
    obtain ⟨a, content, c, -, hline, -⟩ := Text.line_of_boundary hfits.start
    exact ⟨hfits.ordered, hfits.stop_le, hfits.start, hfits.stop, start, content, hstart, hposition,
      hline⟩
  · exact Report.print_failure (hpresentable he) hr

/-- The place of a call that spans two lines is shown on one. -/
example : (match Table.read "atan2(\n1)".toList Table.empty with
    | .error (.refused e) _ => (Report.empty.failure (.invalid e)).print? "atan2(\n1)".toList
    | _ => none) =
    some ("\x1b[38;5;1m[E]\x1b[39m 1:1\t \x1b[38;5;1matan2(1)\x1b[39m \t-> " ++
      "\x1b[38;5;4m`atan2` takes 2 argument(s) but 1 were given.\x1b[39m\n") := by
  decide +kernel

end FormulaGraph
