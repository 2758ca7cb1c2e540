/-
  File:      FormulaGraph/Proofs/Grammar/Slice.lean
  Subject:   The span of a part of a formula denotes that part.

  A part of a formula has a block of the tokens, so its span is not empty, holds the spans of its
  operands, and these lie one behind the other. The text at the span is read as the tokens of the
  block, and these as the part, only nearer to the start. The one thing that can go wrong is that
  the part needs a level more than there is; see `Leaning` for how that can be.

  * `Part`, `Nested` -- the parts of a formula, and how their spans lie;
  * `Token.Scans.shifted`, `filter_middle` -- the tokens of a stretch of the text;
  * `parse_slice` -- the text at the span of a part is read as that part, or at the limit found too
    deep;
  * `parse_slice_tooDeep` -- a formula whose own text is found too deep.
-/
import FormulaGraph.Proofs.Grammar.Limit
import FormulaGraph.Proofs.Grammar.Shift
import FormulaGraph.Proofs.Grammar.Spread
import FormulaGraph.Proofs.Token.Tiling

namespace FormulaGraph

/-! ## 1. Tokens further on -/

namespace Token

variable {offset : Nat} {cs : List Char} {ts us : List Token}

theorem Scans.shifted (h : Scans offset cs ts) (d : Nat) :
    Scans (offset + d) cs (ts.map (Token.shifted d)) := by
  induction h with
  | nil => exact .nil
  | cons first rest ih =>
    rw [Nat.add_right_comm] at ih
    exact .cons first ih

theorem Scans.unique (h : Scans offset cs ts) (h' : Scans offset cs us) : ts = us :=
  (h.scanFrom_eq (Nat.le_refl _)).symm.trans (h'.scanFrom_eq (Nat.le_refl _))

/-- The tokens of a text cover it. -/
theorem Scans.covers (h : Scans offset cs ts) (hne : ts ≠ []) :
    Formula.Covers ts ⟨offset, offset + Text.byteSize cs⟩ := by
  induction h with
  | nil => exact absurd rfl hne
  | @cons offset c body more kind ts first rest ih =>
    rw [offset_add_byteSize]
    cases ts with
    | nil =>
      cases rest
      exact Formula.covers_single ⟨kind, c :: body, offset⟩
    | cons t ts =>
      exact (Formula.covers_single ⟨kind, c :: body, offset⟩).join [] (ih (List.cons_ne_nil t ts))

/-- Tokens one behind the other, none of them empty. -/
structure Lined (ts : List Token) : Prop where
  ordered : ts.Pairwise fun a b => a.span.stop ≤ b.start
  nonempty : ∀ t ∈ ts, t.start < t.span.stop

theorem Lined.sublist (h : Lined ts) (hsub : us.Sublist ts) : Lined us where
  ordered := h.ordered.sublist hsub
  nonempty t ht := h.nonempty t (hsub.subset ht)

theorem lined_tokens (cs : List Char) : Lined (Grammar.tokens cs) where
  ordered := ((laid_scan cs).sublist List.filter_sublist).ordered
  nonempty t ht := (scans_scan cs).nonempty t (List.mem_of_mem_filter ht)

end Token

/-- A stretch of what is left of a list comes from a stretch of the list, with the same ends. -/
theorem filter_middle {α : Type} {p : α → Bool} {xs a ys c : List α} {y z : α}
    (h : xs.filter p = a ++ (ys ++ c)) (hy : y ∈ ys.head?) (hz : z ∈ ys.getLast?) :
    ∃ a' ys' c', xs = a' ++ (ys' ++ c') ∧ ys'.filter p = ys ∧ y ∈ ys'.head? ∧ z ∈ ys'.getLast? := by
  obtain ⟨a₁, rest, rfl, -, hrest⟩ := List.filter_eq_append_iff.mp h
  obtain ⟨middle, c₁, rfl, hmiddle, -⟩ := List.filter_eq_append_iff.mp hrest
  -- what is filtered out in front of the first and behind the last is left outside
  obtain ⟨ys₁, rfl⟩ : ∃ ys₁, ys = y :: ys₁ := ⟨ys.tail, List.eq_cons_of_mem_head? hy⟩
  obtain ⟨a₂, tail, rfl, -, hpy, htail⟩ := List.filter_eq_cons_iff.mp hmiddle
  obtain ⟨front, hfront⟩ := List.getLast?_eq_some_iff.mp (Option.mem_def.mp hz)
  have hblock : (y :: tail).filter p = front ++ [z] := by
    rw [List.filter_cons_of_pos hpy, htail, hfront]
  obtain ⟨b₁, b₂, hsplit, hb₁, hb₂⟩ := List.filter_eq_append_iff.mp hblock
  obtain ⟨b₃, c₂, rfl, hb₃, hpz, hc₂⟩ := List.filter_eq_cons_iff.mp hb₂
  refine ⟨a₁ ++ a₂, b₁ ++ (b₃ ++ [z]), c₂ ++ c₁, ?_, ?_, ?_, ?_⟩
  · rw [hsplit]
    simp
  · rw [hfront, List.filter_append, List.filter_append, hb₁, List.filter_eq_nil_iff.mpr hb₃]
    simp [hpz]
  · have hhead : (b₁ ++ (b₃ ++ [z]) ++ c₂).head? = some y := by
      rw [List.append_assoc, List.append_assoc, List.singleton_append, ← hsplit]
      rfl
    rw [List.head?_append_of_ne_nil _ (by simp)] at hhead
    exact hhead
  · rw [← List.append_assoc]
    exact List.getLast?_concat

namespace Formula

/-! ## 2. Parts and their spans -/

/-- A formula is a part of itself, and the parts of its operands are parts of it. -/
inductive Part : Formula → Formula → Prop where
  | self {f : Formula} : Part f f
  | operand {e g f : Formula} (member : g ∈ f.operands) (part : Part e g) : Part e f

/-- **How the spans of a formula and its operands lie.** -/
structure Nested (f : Formula) : Prop where
  nonempty : f.span.start < f.span.stop
  inside : ∀ e ∈ f.operands, f.span.start ≤ e.span.start ∧ e.span.stop ≤ f.span.stop
  ordered : f.operands.Pairwise fun a b => a.span.stop ≤ b.span.start

variable {P : List Token → Formula → Prop} {us vs : List Token} {e f : Formula} {fs : List Formula}
  {s s' : Span}

theorem SpreadAll.mem (h : SpreadAll P us fs) (hf : f ∈ fs) :
    ∃ a vs c, us = a ++ (vs ++ c) ∧ Spread P vs f := by
  induction fs generalizing us with
  | nil => cases hf
  | cons g fs ih =>
    cases h with
    | @cons gap us vs _ _ first rest =>
      rcases List.mem_cons.mp hf with rfl | hf
      · exact ⟨gap, us, vs, rfl, first⟩
      · obtain ⟨a, ws, c, rfl, hspread⟩ := ih rest hf
        exact ⟨gap ++ (us ++ a), ws, c, by simp, hspread⟩

theorem Spread.part (h : Spread P us f) (he : Part e f) :
    ∃ a vs c, us = a ++ (vs ++ c) ∧ Spread P vs e := by
  induction he generalizing us with
  | self => exact ⟨[], us, [], by simp, h⟩
  | operand member _ ih =>
    cases h with
    | node covers holds parts =>
      obtain ⟨a, vs, c, rfl, hspread⟩ := parts.mem member
      obtain ⟨a', ws, c', rfl, hpart⟩ := ih hspread
      exact ⟨a ++ a', ws, c' ++ c, by simp, hpart⟩

theorem Covers.unique (h : Covers us s) (h' : Covers us s') : s = s' := by
  obtain ⟨t, ht, u, hu, rfl⟩ := h
  obtain ⟨t', ht', u', hu', rfl⟩ := h'
  rw [Option.mem_unique ht ht', Option.mem_unique hu hu']

/-- The ends of a block are those of tokens in it. -/
theorem Covers.ends (h : Covers us s) :
    (∃ t ∈ us, s.start = t.start) ∧ ∃ t ∈ us, s.stop = t.span.stop := by
  obtain ⟨t, ht, u, hu, rfl⟩ := h
  exact ⟨⟨t, List.mem_of_head? ht, rfl⟩, u, List.mem_of_getLast? hu, rfl⟩

/-- All tokens of a block lie inside its span. -/
theorem Covers.bounds (h : Covers us s) (hlined : Token.Lined us) :
    ∀ t ∈ us, s.start ≤ t.start ∧ t.span.stop ≤ s.stop := by
  obtain ⟨first, hfirst, last, hlast, rfl⟩ := h
  have hle : ∀ t ∈ us, t.start ≤ t.span.stop := fun t ht => Nat.le_of_lt (hlined.nonempty t ht)
  obtain ⟨rest, rfl⟩ : ∃ rest, us = first :: rest := by
    cases us with
    | nil => cases hfirst
    | cons t us =>
      cases hfirst
      exact ⟨us, rfl⟩
  obtain ⟨front, hfront⟩ := List.getLast?_eq_some_iff.mp hlast
  intro t ht
  refine ⟨?_, ?_⟩
  · rcases List.mem_cons.mp ht with rfl | hmem
    · exact Nat.le_refl _
    · exact Nat.le_trans (hle first List.mem_cons_self)
        (List.rel_of_pairwise_cons hlined.ordered hmem)
  · have hordered := hlined.ordered
    rw [hfront] at ht hordered hle
    rcases List.mem_append.mp ht with hmem | hmem
    · exact Nat.le_trans ((List.pairwise_append.mp hordered).2.2 t hmem last List.mem_cons_self)
        (hle last (List.mem_append_right _ List.mem_cons_self))
    · rw [List.mem_singleton.mp hmem]
      exact Nat.le_refl _

/-- A block inside another has its span inside. -/
theorem Covers.inside {a c : List Token} (h : Covers (a ++ (us ++ c)) s) (h' : Covers us s')
    (hlined : Token.Lined (a ++ (us ++ c))) : s.start ≤ s'.start ∧ s'.stop ≤ s.stop := by
  have hmem : ∀ t ∈ us, t ∈ a ++ (us ++ c) := fun t ht =>
    List.mem_append_right a (List.mem_append_left c ht)
  obtain ⟨⟨t, ht, hstart⟩, u, hu, hstop⟩ := h'.ends
  rw [hstart, hstop]
  exact ⟨(h.bounds hlined t (hmem t ht)).1, (h.bounds hlined u (hmem u hu)).2⟩

/-- Operands lie one behind the other. -/
theorem SpreadAll.ordered (h : SpreadAll P us fs) (hlined : Token.Lined us) :
    fs.Pairwise fun a b => a.span.stop ≤ b.span.start := by
  induction fs generalizing us with
  | nil => exact .nil
  | cons f fs ih =>
    cases h with
    | @cons gap us vs _ _ first rest =>
      have hboth : Token.Lined (us ++ vs) := hlined.sublist (List.sublist_append_right gap _)
      refine .cons (fun g hg => ?_) (ih rest (hboth.sublist (List.sublist_append_right us vs)))
      obtain ⟨a, ws, c, rfl, hspread⟩ := rest.mem hg
      obtain ⟨-, t, ht, hstop⟩ := first.covers.ends
      obtain ⟨⟨u, hu, hstart⟩, -⟩ := hspread.covers.ends
      rw [hstop, hstart]
      exact (List.pairwise_append.mp hboth.ordered).2.2 t ht u
        (List.mem_append_right a (List.mem_append_left c hu))

theorem Spread.nested (h : Spread P us f) (hlined : Token.Lined us) : f.Nested := by
  cases h with
  | node covers holds parts =>
    refine ⟨?_, fun e he => ?_, parts.ordered hlined⟩
    · obtain ⟨⟨t, ht, hstart⟩, -⟩ := covers.ends
      rw [hstart]
      exact Nat.lt_of_lt_of_le (hlined.nonempty t ht) (covers.bounds hlined t ht).2
    · obtain ⟨a, vs, c, rfl, hspread⟩ := parts.mem he
      exact covers.inside hspread.covers hlined

/-! ## 3. The text at a span -/

/-- **The text at the span of a block is read as the block**, only nearer to the start. -/
theorem slice_tokens {cs : List Char} {a c : List Token}
    (h : Grammar.tokens cs = a ++ (us ++ c)) (hcovers : Covers us s) :
    ∃ slice, s.text? cs = some slice ∧ (Grammar.tokens slice).map (Token.shifted s.start) = us := by
  obtain ⟨first, hfirst, last, hlast, hs⟩ := hcovers
  obtain ⟨a', us', c', hscan, hfilter, hfirst', hlast'⟩ := filter_middle h hfirst hlast
  have hscans := Token.scans_scan cs
  rw [hscan] at hscans
  have hmiddle := hscans.middle
  have htext := hscans.text_eq
  rw [Nat.zero_add] at hmiddle
  rw [List.map_append, List.flatten_append, List.map_append, List.flatten_append] at htext
  have hne : us' ≠ [] := by
    intro hnil
    rw [hnil] at hfirst'
    cases hfirst'
  -- both spans go from the first token of the stretch to the last one
  have hspan := Covers.unique ⟨first, hfirst', last, hlast', rfl⟩ (hmiddle.covers hne)
  rw [← hs] at hspan
  have hstart : s.start = Text.byteSize (a'.map Token.text).flatten := congrArg Span.start hspan
  refine ⟨(us'.map Token.text).flatten, ?_, ?_⟩
  · rw [hspan, Span.text?, ← htext]
    exact Text.slice?_append _ _ _
  · have hshifted := (Token.scans_scan (us'.map Token.text).flatten).shifted s.start
    rw [Nat.zero_add, hstart] at hshifted
    rw [hstart]
    calc (Grammar.tokens (us'.map Token.text).flatten).map (Token.shifted _)
        = ((Token.scan (us'.map Token.text).flatten).map (Token.shifted _)).filter
            (·.kind != .blank) := by
          rw [List.filter_map]
          rfl
      _ = us'.filter (·.kind != .blank) := by rw [hshifted.unique hmiddle]
      _ = us := hfilter

/-- What is read from shifted tokens is read from the tokens, nearer to the start. -/
theorem Alone.sum_eq {ts : List Token} {d room : Nat}
    (h : Alone room (ts.map (Token.shifted d)) e) (stop : Token) (hstop : stop.kind = .stop) :
    ∃ g : Formula, g.shifted d = e ∧ sum stop room ts = .ok (g, []) := by
  have hmoved := h (stop.shifted d) hstop
  rw [sum_shifted room ts] at hmoved
  cases hsum : sum stop room ts with
  | error e =>
    rw [hsum] at hmoved
    cases hmoved
  | ok found =>
    obtain ⟨g, rest⟩ := found
    rw [hsum] at hmoved
    obtain ⟨hg, hrest⟩ := Prod.mk.inj (Except.ok.inj hmoved)
    obtain rfl : rest = [] := List.map_eq_nil_iff.mp hrest
    exact ⟨g, hg, rfl⟩

/-- A text whose tokens are read with some room is read as a sum. -/
theorem parse_of_sum {cs : List Char} {room : Nat} {g : Formula}
    (h : sum (Token.stopAt (Text.byteSize cs)) room (Grammar.tokens cs) = .ok (g, [])) :
    parse cs = (do
      let (f, rest) ← sum (Token.stopAt (Text.byteSize cs)) depthLimit (Grammar.tokens cs)
      match rest with
      | [] => .ok f
      | t :: _ => .error (.unexpected .stop t.kind t.span)) := by
  obtain ⟨ts, hts, hsum⟩ := sum_sound rfl room h
  rw [List.append_nil] at hts
  rw [← hts] at hsum
  exact ofTokens_of_sentence hsum.sentence

/-- A part whose own text may be found too deep: the text of the formula uses up all levels and
    begins with a plus, and the part begins where the formula does, with a power that other
    operators follow. -/
structure AtLimit (cs : List Char) (f e : Formula) : Prop where
  full : ∃ span, sum (Token.stopAt (Text.byteSize cs)) (depthLimit - 1) (Grammar.tokens cs) =
    .error (.tooDeep span)
  plus : ∃ t ts, Grammar.tokens cs = t :: ts ∧ t.kind = .plus
  begins : e.span.start = f.span.start
  leans : e.leansOnPower = true

/-- All parts of a formula are alone at the limit, or just beyond it. -/
theorem parse_spread {cs : List Char} (h : parse cs = .ok f) :
    ∃ gap us, Grammar.tokens cs = gap ++ us ∧
      Spread (fun vs e =>
        Alone depthLimit vs e ∨ Alone (depthLimit + 1) vs e ∧ AtLimit cs f e) us f := by
  have hsum : sum (Token.stopAt (Text.byteSize cs)) depthLimit (Grammar.tokens cs) = .ok (f, []) :=
    ofTokens_ok h
  rcases sum_mono (Nat.sub_le depthLimit 1) (Grammar.tokens cs) with hsame | hfull
  · -- with a level to spare, one more is still within the limit
    rw [hsum] at hsame
    obtain ⟨gap, us, hts, hspread⟩ := sum_spread_top rfl hsame
    rw [List.append_nil] at hts
    refine ⟨gap, us, hts, hspread.mono fun vs e holds => .inl ?_⟩
    rcases holds with halone | ⟨halone, -⟩
    · exact halone.mono (Nat.sub_le depthLimit 1)
    · exact halone
  · obtain ⟨gap, us, hts, hspread⟩ := sum_spread_top rfl hsum
    rw [List.append_nil] at hts
    refine ⟨gap, us, hts, hspread.mono fun vs e holds => ?_⟩
    refine holds.imp_right fun hlean => ⟨hlean.1, hfull, ?_, hlean.2.begins, hlean.2.leans⟩
    obtain ⟨t, gap', rfl, hplus⟩ := hlean.2.dropped
    exact ⟨t, gap' ++ us, hts, hplus⟩

/-- **Spans denote the parts of a formula**: for every part of what a text is read as, the span is
    not empty, holds those of its operands, and these lie one behind the other; and the text at the
    span is read as that part, with all spans counted from its start. Only a part that is `AtLimit`
    may be found too deep instead. -/
theorem parse_slice {cs : List Char} (h : parse cs = .ok f) (he : Part e f) :
    e.Nested ∧ ∃ slice, e.span.text? cs = some slice ∧
      ((∃ g, parse slice = .ok g ∧ g.shifted e.span.start = e) ∨
        AtLimit cs f e ∧ ∃ span, parse slice = .error (.tooDeep span)) := by
  obtain ⟨gap, us, hts, hspread⟩ := parse_spread h
  obtain ⟨a, vs, c, rfl, hpart⟩ := hspread.part he
  have hlined : Token.Lined vs := (Token.lined_tokens cs).sublist (by
    rw [hts]
    exact (List.sublist_append_left vs c).trans
      ((List.sublist_append_right a _).trans (List.sublist_append_right gap _)))
  rw [← List.append_assoc] at hts
  obtain ⟨slice, hslice, htokens⟩ := slice_tokens hts hpart.covers
  refine ⟨hpart.nested hlined, slice, hslice, ?_⟩
  cases hpart with
  | node covers holds parts =>
    rw [← htokens] at holds
    rcases holds with halone | ⟨halone, hlimit⟩
    · obtain ⟨g, hg, hsum⟩ := halone.sum_eq (Token.stopAt (Text.byteSize slice)) rfl
      refine .inl ⟨g, ?_, hg⟩
      rw [parse_of_sum hsum, hsum]
      rfl
    · obtain ⟨g, hg, hsum⟩ := halone.sum_eq (Token.stopAt (Text.byteSize slice)) rfl
      rw [parse_of_sum hsum]
      rcases sum_mono (Nat.le_succ depthLimit) (Grammar.tokens slice) with hsame | ⟨span, hdeep⟩
      · refine .inl ⟨g, ?_, hg⟩
        rw [hsame, hsum]
        rfl
      · refine .inr ⟨hlimit, span, ?_⟩
        rw [hdeep]
        rfl

/-- In a text with dropped signs, blanks and a power behind a plus every part is read again, since
    it leaves levels to spare. -/
theorem parse_slice_product :
    let cs := ['+', ' ', 'a', '*', '*', 'b', ' ', '*', ' ', '(', 'c', ' ', '-', ' ', '+', '1', ')']
    let spans : List Span :=
      [⟨2, 17⟩, ⟨2, 6⟩, ⟨2, 3⟩, ⟨5, 6⟩, ⟨9, 17⟩, ⟨10, 16⟩, ⟨10, 11⟩, ⟨15, 16⟩]
    ∃ f, parse cs = .ok f ∧ f.spans = spans ∧ f.leansOnPower = true ∧
      ∀ e, Part e f → e.Nested ∧ ∃ slice g, e.span.text? cs = some slice ∧ parse slice = .ok g ∧
        g.shifted e.span.start = e := by
  intro cs spans
  have hread : (parse cs).toOption.map (fun f => (f.spans, f.leansOnPower)) =
      some (spans, true) := by decide +kernel
  have hspare : (sum (Token.stopAt (Text.byteSize cs)) (depthLimit - 1)
      (Grammar.tokens cs)).toOption.isSome = true := by decide +kernel
  obtain ⟨f, hf, hg⟩ := exists_of_toOption hread
  obtain ⟨hspans, hleans⟩ := Prod.mk.inj hg
  refine ⟨f, hf, hspans, hleans, fun e he => ?_⟩
  obtain ⟨hnested, slice, hslice, ⟨g, hparse, hsame⟩ | ⟨hlimit, -⟩⟩ := parse_slice hf he
  · exact ⟨hnested, slice, g, hslice, hparse, hsame⟩
  · obtain ⟨span, hdeep⟩ := hlimit.full
    rw [hdeep] at hspare
    cases hspare

/-- Whether a text was found too deep. -/
def isTooDeep : Except FormulaError Formula → Bool
  | .error (.tooDeep _) => true
  | _ => false

theorem exists_tooDeep {result : Except FormulaError Formula} (h : isTooDeep result = true) :
    ∃ span, result = .error (.tooDeep span) := by
  unfold isTooDeep at h
  split at h
  · exact ⟨_, rfl⟩
  · cases h

/-- **At the limit a formula may be found too deep by itself**: behind the plus the power hands its
    level back, and without the plus, which the span leaves out, it does not. -/
theorem parse_slice_tooDeep :
    let slice :=
      ['a', '*', '*', 'b', '*'] ++ (List.replicate 254 '(' ++ 'c' :: List.replicate 254 ')')
    ∃ f, parse ('+' :: slice) = .ok f ∧ f.height = depthLimit ∧
      f.span.text? ('+' :: slice) = some slice ∧ ∃ span, parse slice = .error (.tooDeep span) := by
  intro slice
  have hread : (parse ('+' :: slice)).toOption.map
      (fun f => (f.height, f.span.text? ('+' :: slice))) = some (depthLimit, some slice) := by
    decide +kernel
  have hdeep : isTooDeep (parse slice) = true := by decide +kernel
  obtain ⟨f, hf, hg⟩ := exists_of_toOption hread
  obtain ⟨hheight, htext⟩ := Prod.mk.inj hg
  exact ⟨f, hf, hheight, htext, exists_tooDeep hdeep⟩

end Formula

end FormulaGraph
