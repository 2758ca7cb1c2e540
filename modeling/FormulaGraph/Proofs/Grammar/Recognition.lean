/-
  File:      FormulaGraph/Proofs/Grammar/Recognition.lean
  Subject:   Reading a text recognises the grammar.

  What is read derives from the grammar, and what derives is read with its tree, unless it nests too
  deep. Since the parser gives one answer, the grammar gives one tree.

  * `Grammar.Sum.unique` -- the grammar is unambiguous;
  * `Formula.ofTokens_sound`, `Formula.ofTokens_complete` -- the two directions, for tokens;
  * `Formula.parse_recognises` -- both, for texts.
-/
import FormulaGraph.Proofs.Grammar.Complete

namespace FormulaGraph

/-! ## 1. One tree -/

/-- **The grammar is unambiguous.** -/
theorem Grammar.Sum.unique {ts : List Token} {s s' : Shape} (h : Sum ts s) (h' : Sum ts s') :
    s = s' := by
  -- with room enough, both trees are what the parser gives
  have hstop : (Token.stopAt 0).kind = .stop := rfl
  obtain ⟨f, rfl, hf⟩ := Formula.sum_complete hstop h (Nat.lt_succ_self _)
  obtain ⟨f', rfl, hf'⟩ := Formula.sum_complete hstop h' (Nat.lt_succ_self _)
  rw [hf] at hf'
  cases hf'
  rfl

namespace Formula

variable {stop : Token} {ts : List Token}

/-! ## 2. Tokens -/

/-- What a list of tokens is read as has used all of them. -/
theorem ofTokens_ok {f : Formula} (h : ofTokens stop ts = .ok f) :
    sum stop depthLimit ts = .ok (f, []) := by
  unfold ofTokens at h
  split at h
  · cases h
  · split at h
    · cases h
    · obtain ⟨⟨f', rest⟩, hsum, hrest⟩ := bind_ok_iff.mp h
      dsimp only at hrest
      split at hrest
      · cases hrest
        exact hsum
      · cases hrest

theorem ofTokens_sound (hstop : stop.kind = .stop) {f : Formula} (h : ofTokens stop ts = .ok f) :
    Grammar.Sum ts f.shape := by
  obtain ⟨us, rfl, hus⟩ := sum_sound hstop depthLimit (ofTokens_ok h)
  rwa [List.append_nil]

/-- Tokens that derive are neither bad nor missing, so they are read as a sum. -/
theorem ofTokens_of_sentence (h : Grammar.Sentence ts) :
    ofTokens stop ts = (do
      let (f, rest) ← sum stop depthLimit ts
      match rest with
      | [] => .ok f
      | t :: _ => .error (.unexpected .stop t.kind t.span)) := by
  have hbad : ts.find? (·.kind == .bad) = none := by
    rw [List.find?_eq_none]
    intro t ht hk
    exact h.clean t ht (eq_of_beq hk)
  unfold ofTokens
  rw [hbad]
  exact if_neg (by simpa using h.ne_nil)

/-- What derives is read with its tree, or has so many tokens that it may nest too deep. -/
theorem ofTokens_complete (hstop : stop.kind = .stop) {s : Shape} (h : Grammar.Sum ts s) :
    (∃ f : Formula, ofTokens stop ts = .ok f ∧ f.shape = s) ∨
      depthLimit ≤ 2 * ts.length ∧ ∃ span, ofTokens stop ts = .error (.tooDeep span) := by
  rw [ofTokens_of_sentence h.sentence]
  by_cases hroom : 2 * ts.length < depthLimit
  · obtain ⟨f, hf, hsum⟩ := sum_complete hstop h hroom
    refine .inl ⟨f, ?_, hf⟩
    rw [hsum]
    rfl
  · obtain ⟨f, hf, hsum⟩ := sum_complete hstop h (Nat.lt_succ_self _)
    have hle : depthLimit ≤ 2 * ts.length := Nat.not_lt.mp hroom
    have hmono : UpToDepth (sum stop depthLimit ts) (sum stop (2 * ts.length + 1) ts) :=
      sum_mono (Nat.le_succ_of_le hle) ts
    rcases hmono with hsame | ⟨span, hdeep⟩
    · refine .inl ⟨f, ?_, hf⟩
      rw [hsame, hsum]
      rfl
    · refine .inr ⟨hle, span, ?_⟩
      rw [hdeep]
      rfl

end Formula

/-! ## 3. Texts -/

/-- The tokens of a text that are no blanks. -/
def Grammar.tokens (cs : List Char) : List Token :=
  (Token.scan cs).filter (·.kind != .blank)

/-- **The parser recognises the grammar.** What a text is read as derives from the grammar. What
    derives has one tree, and it is read as that tree unless it nests too deep, which takes at least
    `depthLimit / 2` tokens. What does not derive is refused. -/
theorem Formula.parse_recognises (cs : List Char) :
    (∀ f, parse cs = .ok f → Grammar.Sum (Grammar.tokens cs) f.shape) ∧
      (∀ s, Grammar.Sum (Grammar.tokens cs) s →
        (∀ s', Grammar.Sum (Grammar.tokens cs) s' → s' = s) ∧
          ((∃ f, parse cs = .ok f ∧ f.shape = s) ∨
            depthLimit ≤ 2 * (Grammar.tokens cs).length ∧
              ∃ span, parse cs = .error (.tooDeep span))) ∧
      ((∀ s, ¬ Grammar.Sum (Grammar.tokens cs) s) → ∃ e, parse cs = .error e) := by
  have hsound : ∀ f, parse cs = .ok f → Grammar.Sum (Grammar.tokens cs) f.shape :=
    fun f h => ofTokens_sound rfl h
  refine ⟨hsound, fun s h => ⟨fun s' h' => h'.unique h, ofTokens_complete rfl h⟩, fun hnone => ?_⟩
  cases hp : parse cs with
  | error e => exact ⟨e, rfl⟩
  | ok f => exact absurd (hsound f hp) (hnone f.shape)

end FormulaGraph
