/-
  File:      FormulaGraph/Proofs/Token/Layout.lean
  Subject:   How the tokens of a text lie in it.

  The scanner takes one token behind the other, so each is a stretch of the text and begins where
  the last one ended or later. A newline is a blank, so it is in no word and no bad token.

  * `Token.Fits` -- a token is a stretch of the text;
  * `Token.Laid` -- tokens that fit, one behind the other, with the stop token behind them all;
  * `Token.laid_scan` -- the tokens of a text are laid.
-/
import FormulaGraph.Proofs.Text.Lines
import FormulaGraph.Token.Lexer

namespace FormulaGraph

namespace Token

/-! ## 1. One token -/

/-- A kind and its text that quote no newline. -/
structure Plain (kind : TokenKind) (text : List Char) : Prop where
  word : ∀ name, kind = .word name → OneLine name
  bad : kind = .bad → '\n' ∉ text

theorem plain_of_kind {kind : TokenKind} {text : List Char} (hword : ∀ name, kind ≠ .word name)
    (hbad : kind ≠ .bad) : Plain kind text :=
  ⟨fun name h => absurd h (hword name), fun h => absurd h hbad⟩

theorem plain_number (n : Numeral) : Plain (numberKind n) n.text := by
  unfold numberKind
  split <;> exact plain_of_kind nofun nofun

theorem plain_word {c : Char} (hc : startsWord c = true) (rest : List Char) :
    Plain (.word (String.ofList (c :: rest.takeWhile continuesWord)))
      (c :: rest.takeWhile continuesWord) := by
  refine ⟨fun name hname => ?_, nofun⟩
  cases hname
  have hnotStart : startsWord '\n' = false := by decide +kernel
  have hnotWord : continuesWord '\n' = false := by decide +kernel
  intro hmem
  rw [String.toList_ofList] at hmem
  rcases List.mem_cons.mp hmem with rfl | hmem
  · rw [hnotStart] at hc
    cases hc
  · have := List.all_eq_true.mp List.all_takeWhile _ hmem
    rw [hnotWord] at this
    cases this

theorem plain_mark {c : Char} {rest : List Char} {kind : TokenKind} {text : List Char}
    (h : mark? c rest = some (kind, text)) : Plain kind text := by
  unfold mark? at h
  split at h
  case h_3 => split at h <;> cases h <;> exact plain_of_kind nofun nofun
  case h_10 => cases h
  all_goals
    cases h
    exact plain_of_kind nofun nofun

/-- No word and no bad token has a newline. -/
theorem readToken_plain (c : Char) (rest : List Char) :
    Plain (readToken c rest).1 (readToken c rest).2.1 := by
  unfold readToken
  split
  · exact plain_number _
  · split
    · rename_i hword
      exact plain_word hword rest
    · split
      · exact plain_of_kind nofun nofun
      · rename_i hblank
        split
        · rename_i hmark
          exact plain_mark hmark
        · refine ⟨nofun, fun _ hmem => ?_⟩
          rw [← List.mem_singleton.mp hmem] at hblank
          exact hblank (by decide)

/-- The stop token stands behind the text and nowhere in it. -/
theorem readToken_ne_stop (c : Char) (rest : List Char) : (readToken c rest).1 ≠ .stop := by
  unfold readToken
  split
  · show numberKind _ ≠ _
    unfold numberKind
    split <;> exact nofun
  · split
    · exact nofun
    · split
      · exact nofun
      · split
        · rename_i kind text hmark
          unfold mark? at hmark
          split at hmark
          case h_3 => split at hmark <;> cases hmark <;> exact nofun
          case h_10 => cases hmark
          all_goals
            cases hmark
            exact nofun
        · exact nofun

theorem scanFrom_ne_stop {steps offset : Nat} {cs : List Char} :
    ∀ t ∈ scanFrom steps offset cs, t.kind ≠ .stop := by
  induction steps generalizing offset cs with
  | zero => exact fun t ht => absurd ht List.not_mem_nil
  | succ steps ih =>
    cases cs with
    | nil => exact fun t ht => absurd ht List.not_mem_nil
    | cons c cs =>
      intro t ht
      rcases List.mem_cons.mp ht with rfl | ht
      · exact readToken_ne_stop c cs
      · exact ih t ht

/-- A token is a stretch of the text. -/
structure Fits (cs : List Char) (t : Token) : Prop where
  place : ∃ a c, cs = a ++ (t.text ++ c) ∧ t.start = Text.byteSize a
  plain : Plain t.kind t.text

variable {cs : List Char} {t stop : Token} {ts us : List Token}

/-- **The span of a token cuts out its text.** -/
theorem Fits.text (h : t.Fits cs) : t.span.text? cs = some t.text := by
  obtain ⟨a, c, rfl, hstart⟩ := h.place
  unfold Span.text? span
  rw [hstart]
  exact Text.slice?_append a t.text c

theorem Fits.span (h : t.Fits cs) : t.span.Fits cs := by
  obtain ⟨a, c, rfl, hstart⟩ := h.place
  refine ⟨?_, ?_, Nat.le_add_right _ _⟩
  · rw [Token.span, hstart]
    exact Text.boundary_append a _
  · rw [Token.span, hstart, ← Text.byteSize_append, ← List.append_assoc]
    exact Text.boundary_append _ c

/-! ## 2. All tokens -/

/-- Tokens that fit the text, one behind the other, and the stop token behind them. -/
structure Laid (cs : List Char) (stop : Token) (ts : List Token) : Prop where
  fits : ∀ t ∈ ts, t.Fits cs
  stop_fits : stop.Fits cs
  ordered : ts.Pairwise fun a b => a.span.stop ≤ b.start
  before_stop : ∀ t ∈ ts, t.span.stop ≤ stop.start

theorem Laid.sublist (h : Laid cs stop ts) (hsub : us.Sublist ts) : Laid cs stop us where
  fits t ht := h.fits t (hsub.subset ht)
  stop_fits := h.stop_fits
  ordered := h.ordered.sublist hsub
  before_stop t ht := h.before_stop t (hsub.subset ht)

theorem Laid.tail (h : Laid cs stop (t :: ts)) : Laid cs stop ts :=
  h.sublist (List.sublist_cons_self t ts)

theorem Laid.head (h : Laid cs stop (t :: ts)) : t.Fits cs := h.fits t List.mem_cons_self

/-- What the scanner reads behind a front part. -/
theorem scanFrom_laid (steps : Nat) (front rest : List Char) :
    (∀ t ∈ scanFrom steps (Text.byteSize front) rest,
      t.Fits (front ++ rest) ∧ Text.byteSize front ≤ t.start) ∧
      (scanFrom steps (Text.byteSize front) rest).Pairwise fun a b => a.span.stop ≤ b.start := by
  induction steps generalizing front rest with
  | zero => exact ⟨fun t ht => absurd ht List.not_mem_nil, .nil⟩
  | succ steps ih =>
    cases rest with
    | nil => exact ⟨fun t ht => absurd ht List.not_mem_nil, .nil⟩
    | cons c rest =>
      have htext := readToken_text c rest
      have hplain := readToken_plain c rest
      unfold scanFrom
      generalize readToken c rest = found at htext hplain ⊢
      obtain ⟨kind, text, more⟩ := found
      dsimp only at htext hplain ⊢
      have hwhole : front ++ c :: rest = (front ++ text) ++ more := by
        rw [← htext, List.append_assoc]
      have hsize : Text.byteSize front + Text.byteSize text = Text.byteSize (front ++ text) :=
        (Text.byteSize_append front text).symm
      rw [hsize]
      obtain ⟨hfits, hordered⟩ := ih (front ++ text) more
      refine ⟨fun t ht => ?_, .cons (fun t ht => ?_) hordered⟩
      · rcases List.mem_cons.mp ht with rfl | ht
        · exact ⟨⟨⟨front, more, by rw [← htext], rfl⟩, hplain⟩, Nat.le_refl _⟩
        · rw [hwhole]
          exact ⟨(hfits t ht).1, Nat.le_trans (by omega) (hfits t ht).2⟩
      · show Text.byteSize front + Text.byteSize text ≤ t.start
        rw [hsize]
        exact (hfits t ht).2

theorem stopAt_fits (cs : List Char) : (stopAt (Text.byteSize cs)).Fits cs where
  place := ⟨cs, [], by rw [stopAt, List.append_nil, List.append_nil], rfl⟩
  plain := plain_of_kind nofun nofun

/-- **The tokens of a text lie one behind the other.** -/
theorem laid_scan (cs : List Char) : Laid cs (stopAt (Text.byteSize cs)) (scan cs) := by
  obtain ⟨hfits, hordered⟩ := scanFrom_laid cs.length [] cs
  exact {
    fits := fun t ht => (hfits t ht).1
    stop_fits := stopAt_fits cs
    ordered := hordered
    before_stop := fun t ht => (hfits t ht).1.span.stop_le }

end Token

end FormulaGraph
